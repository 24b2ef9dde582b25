import Mathlib.Logic.Relation
import KallarOS.Outcome

namespace KallarOS

section Runs
open Relation

variable {ι α σ : Type*} {step : α → ι → α} {C : α → ι → Prop}

/-- A machine driven by a list of inputs meets `C` at each of them. -/
def Along (step : α → ι → α) (C : α → ι → Prop) : α → List ι → Prop
  | _, [] => True
  | a, i :: is => C a i ∧ Along step C (step a i) is

instance decidableAlong [∀ a i, Decidable (C a i)] : (is : List ι) → (a : α) →
    Decidable (Along step C a is)
  | [], _ => inferInstanceAs (Decidable True)
  | i :: is, a =>
    have := decidableAlong is (step a i)
    inferInstanceAs (Decidable (_ ∧ _))

/-- A run of the machine is a run of the system that can follow each of its steps. -/
theorem Along.follow {R : σ → σ → Prop} {S : σ → α → Prop}
    (hstep : ∀ {s a i}, S s a → C a i → ∃ s', R s s' ∧ S s' (step a i)) {s : σ} {a : α} {is : List ι}
    (h : Along step C a is) (hs : S s a) : ∃ s', ReflTransGen R s s' ∧ S s' (is.foldl step a) := by
  induction is generalizing s a with
  | nil => exact ⟨s, .refl, hs⟩
  | cons i is ih =>
    obtain ⟨s₁, hr, hs₁⟩ := hstep hs h.1
    obtain ⟨s', hr', hs'⟩ := ih h.2 hs₁
    exact ⟨s', .head hr hr', hs'⟩

end Runs

namespace Outcome

universe u
variable {α β α' β' : Type u} {R R' : α → β → Prop} {S : α' → β' → Prop}

/-- Two routines return related values or stop alike. -/
inductive Related (R : α → β → Prop) : Outcome α → Outcome β → Prop where
  | ok {a : α} {b : β} : R a b → Related R (.ok a) (.ok b)
  | error (e : Stop) : Related R (.error e) (.error e)

namespace Related

variable {x : Outcome α} {y : Outcome β}

theorem mono (h : Related R x y) (hr : ∀ a b, R a b → R' a b) : Related R' x y := by
  cases h with
  | ok hab => exact .ok (hr _ _ hab)
  | error e => exact .error e

/-- The weakening may use what the first routine returned. -/
theorem mono_ok (h : Related R x y) (hr : ∀ a b, x = .ok a → R a b → R' a b) : Related R' x y := by
  cases h with
  | ok hab => exact .ok (hr _ _ rfl hab)
  | error e => exact .error e

theorem bind (h : Related R x y) {f : α → Outcome α'} {g : β → Outcome β'}
    (hf : ∀ a b, R a b → Related S (f a) (g b)) : Related S (x >>= f) (y >>= g) := by
  cases h with
  | ok hab => exact hf _ _ hab
  | error e => exact .error e

/-- The first routine returned, so the second did. -/
theorem exists_ok (h : Related R x y) {a : α} (hx : x = .ok a) : ∃ b, y = .ok b ∧ R a b := by
  cases h with
  | ok hab =>
    cases hx
    exact ⟨_, rfl, hab⟩
  | error e => cases hx

theorem exists_ok_left (h : Related R x y) {b : β} (hy : y = .ok b) : ∃ a, x = .ok a ∧ R a b := by
  cases h with
  | ok hab =>
    cases hy
    exact ⟨_, rfl, hab⟩
  | error e => cases hy

end Related

end Outcome

end KallarOS
