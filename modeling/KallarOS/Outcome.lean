import Mathlib

namespace KallarOS

/-- How a kernel routine can fail to return: `panic` halts the machine with its
message, a bad access faults, and a pointer walk can run forever. -/
inductive Stop where
  | panic (message : String)
  | fault (address : ℕ)
  | diverge
deriving Repr, DecidableEq

abbrev Outcome := Except Stop

namespace Outcome

universe u
variable {α β : Type u}

@[simp] theorem ok_bind (a : α) (f : α → Outcome β) : (Except.ok a >>= f) = f a := rfl

@[simp] theorem pure_eq_ok (a : α) : (pure a : Outcome α) = Except.ok a := rfl

@[simp] theorem error_bind (e : Stop) (f : α → Outcome β) :
    ((Except.error e : Outcome α) >>= f) = Except.error e := rfl

/-- A routine that returned went through its first part. -/
theorem bind_eq_ok {x : Outcome α} {f : α → Outcome β} {b : β} :
    x >>= f = .ok b ↔ ∃ a, x = .ok a ∧ f a = .ok b := by
  cases x with
  | error e => simp
  | ok a => simp

/-- `for (int i = 0; i < n; i++)` over the variables its body changes. -/
def forRange (n : ℕ) (body : ℕ → α → Outcome α) (x : α) : Outcome α :=
  match n with
  | 0 => .ok x
  | n + 1 => forRange n body x >>= body n

/-- The loop rule: an invariant of the counter that every turn re-establishes. -/
theorem forRange_ok (inv : ℕ → α → Prop) (n : ℕ) (body : ℕ → α → Outcome α) (x : α)
    (hstart : inv 0 x)
    (hturn : ∀ i < n, ∀ y, inv i y → ∃ z, body i y = .ok z ∧ inv (i + 1) z) :
    ∃ y, forRange n body x = .ok y ∧ inv n y := by
  induction n with
  | zero => exact ⟨x, rfl, hstart⟩
  | succ n ih =>
    obtain ⟨y, hy, hinv⟩ := ih fun i hi => hturn i (Nat.lt_succ_of_lt hi)
    obtain ⟨z, hz, hinv'⟩ := hturn n (Nat.lt_succ_self n) y hinv
    exact ⟨z, by rw [forRange, hy, ok_bind, hz], hinv'⟩

/-- What every turn that returns preserves holds when the loop returns. -/
theorem forRange_returned (inv : ℕ → α → Prop) {n : ℕ} {body : ℕ → α → Outcome α} {x y : α}
    (hstart : inv 0 x) (hturn : ∀ i < n, ∀ u v, inv i u → body i u = .ok v → inv (i + 1) v)
    (hrun : forRange n body x = .ok y) : inv n y := by
  induction n generalizing y with
  | zero =>
    cases hrun
    exact hstart
  | succ n ih =>
    obtain ⟨u, hu, hy⟩ := bind_eq_ok.mp hrun
    exact hturn n (Nat.lt_succ_self n) u y (ih (fun i hi => hturn i (Nat.lt_succ_of_lt hi)) hu) hy

end Outcome
end KallarOS
