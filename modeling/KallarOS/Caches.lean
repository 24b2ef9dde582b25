import Mathlib.Logic.Function.Basic
import Mathlib.Data.Set.Basic

namespace KallarOS.Caches

/-- A partial copy of a table. -/
abbrev Cache (α β : Type*) := α → Option β

variable {α β : Type*} {P Q : Set α} {c c' : Cache α β} {f f' : α → Option β} {a k : α}

/-- What the cache holds of `P`, the table holds. -/
def CoherentOn (P : Set α) (c : Cache α β) (f : α → Option β) : Prop :=
  ∀ a ∈ P, ∀ b, c a = some b → f a = some b

/-- A look-up asks the cache first. -/
def lookup (c : Cache α β) (f : α → Option β) (a : α) : Option β := (c a).or (f a)

/-- What a cache may become by itself: it loses entries and takes up entries of the table. -/
def Refills (c : Cache α β) (f : α → Option β) (c' : Cache α β) : Prop :=
  ∀ a b, c' a = some b → c a = some b ∨ f a = some b

theorem lookup_of_none (h : c a = none) : lookup c f a = f a := by rw [lookup, h, Option.none_or]

theorem lookup_of_some {b : β} (h : c a = some b) : lookup c f a = some b := by
  rw [lookup, h, Option.some_or]

namespace CoherentOn

/-- On a coherent cache a look-up finds what the table holds. -/
theorem lookup_eq (h : CoherentOn P c f) (ha : a ∈ P) : lookup c f a = f a := by
  cases hc : c a with
  | none => exact lookup_of_none hc
  | some b => rw [lookup_of_some hc, h a ha b hc]

theorem subset (h : CoherentOn P c f) (hq : Q ⊆ P) : CoherentOn Q c f := fun a ha => h a (hq ha)

theorem empty : CoherentOn P (fun _ => none) f := fun _ _ _ hb => nomatch hb

theorem refill (h : CoherentOn P c f) (hr : Refills c f c') : CoherentOn P c' f := fun a ha b hb =>
  (hr a b hb).elim (h a ha b) id

/-- The table may change where the cache is not trusted any more. -/
theorem congr (h : CoherentOn P c f) (hf : ∀ a ∈ P, f' a = f a) : CoherentOn P c f' :=
  fun a ha b hb => (hf a ha).trans (h a ha b hb)

end CoherentOn

section Entries

variable [DecidableEq α]

/-- A look-up leaves its answer in the cache. -/
def fill (c : Cache α β) (f : α → Option β) (k : α) : Cache α β := Function.update c k (lookup c f k)

def drop (c : Cache α β) (k : α) : Cache α β := Function.update c k none

@[simp] theorem drop_self : drop c k k = none := by rw [drop, Function.update_self]

theorem drop_of_ne (h : a ≠ k) : drop c k a = c a := by rw [drop, Function.update_of_ne h]

theorem fill_of_ne (h : a ≠ k) : fill c f k a = c a := by rw [fill, Function.update_of_ne h]

theorem refills_fill (c : Cache α β) (f : α → Option β) (k : α) : Refills c f (fill c f k) := by
  intro a b hb
  by_cases ha : a = k
  · subst ha
    rw [fill, Function.update_self] at hb
    cases hc : c a with
    | none => exact .inr ((lookup_of_none hc).symm.trans hb)
    | some b' => exact .inl ((lookup_of_some hc).symm.trans hb)
  · exact .inl ((fill_of_ne ha).symm.trans hb)

/-- Dropping the entry that went out of date makes the cache coherent again. -/
theorem CoherentOn.drop (h : CoherentOn (P \ {k}) c f) : CoherentOn P (Caches.drop c k) f := by
  intro a ha b hb
  have hne : a ≠ k := by
    rintro rfl
    rw [drop_self] at hb
    cases hb
  exact h a ⟨ha, hne⟩ b ((drop_of_ne hne).symm.trans hb)

end Entries
end KallarOS.Caches
