import Mathlib.Data.Nat.Notation
import Mathlib.Logic.Relation

namespace KallarOS.Programs
open Relation

/-- A program that meets its machine only through operations; `Ans o` is what `o` answers. -/
inductive Prog {Op : Type} (Ans : Op → Type) (α : Type) : Type where
  | ret (a : α)
  | op (o : Op) (k : Ans o → Prog Ans α)

variable {Op : Type} {Ans : Op → Type} {α β σ : Type}

namespace Prog

def bind : Prog Ans α → (α → Prog Ans β) → Prog Ans β
  | .ret a, f => f a
  | .op o k, f => .op o fun x => (k x).bind f

def call (o : Op) : Prog Ans (Ans o) := .op o .ret

instance : Monad (Prog Ans) where
  pure := .ret
  bind := bind

@[simp] theorem pure_eq (a : α) : (pure a : Prog Ans α) = .ret a := rfl

@[simp] theorem ret_bind (a : α) (f : α → Prog Ans β) : (Prog.ret a >>= f) = f a := rfl

@[simp] theorem call_bind (o : Op) (f : Ans o → Prog Ans β) : (call o >>= f) = .op o f := rfl

/-- `for (i = 0; i < n; i++)`. -/
def forRange : ℕ → (ℕ → Prog Ans Unit) → Prog Ans Unit
  | 0, _ => .ret ()
  | n + 1, body => forRange n body >>= fun _ => body n

/-- The run of a program that nothing interferes with. -/
def run (exec : (o : Op) → σ → Ans o × σ) : Prog Ans α → σ → α × σ
  | .ret a, s => (a, s)
  | .op o k, s => (k (exec o s).1).run exec (exec o s).2

end Prog

/-- The weakest precondition of `p` for `Q`, with `rely` at work before every operation
and after the last one, and `inv` true all along. -/
def wp (exec : (o : Op) → σ → Ans o × σ) (rely : σ → σ → Prop) (inv : σ → Prop) :
    Prog Ans α → (α → σ → Prop) → σ → Prop
  | .ret a, Q, s => ∀ s', ReflTransGen rely s s' → inv s' ∧ Q a s'
  | .op o k, Q, s => ∀ s', ReflTransGen rely s s' →
      inv s' ∧ wp exec rely inv (k (exec o s').1) Q (exec o s').2

section Rules
variable {exec : (o : Op) → σ → Ans o × σ} {rely : σ → σ → Prop} {inv : σ → Prop}
  {p : Prog Ans α} {Q R : α → σ → Prop} {s s' : σ}

theorem stable_run {P : σ → Prop} (hstable : ∀ s s', P s → rely s s' → P s') (hP : P s)
    (h : ReflTransGen rely s s') : P s' := by
  induction h with
  | refl => exact hP
  | tail _ hr ih => exact hstable _ _ ih hr

theorem wp_others (h : wp exec rely inv p Q s) (hs : ReflTransGen rely s s') :
    wp exec rely inv p Q s' := by
  cases p with
  | ret a => exact fun s₂ hs₂ => h s₂ (hs.trans hs₂)
  | op o k => exact fun s₂ hs₂ => h s₂ (hs.trans hs₂)

theorem wp_other (h : wp exec rely inv p Q s) (hs : rely s s') : wp exec rely inv p Q s' :=
  wp_others h (.single hs)

theorem wp_inv (h : wp exec rely inv p Q s) : inv s := by
  cases p with
  | ret a => exact (h s .refl).1
  | op o k => exact (h s .refl).1

theorem wp_step {o : Op} {k : Ans o → Prog Ans α} (h : wp exec rely inv (.op o k) Q s) :
    wp exec rely inv (k (exec o s).1) Q (exec o s).2 := (h s .refl).2

theorem wp_done {a : α} (h : wp exec rely inv (.ret a) Q s) : Q a s := (h s .refl).2

theorem wp_mono (h : wp exec rely inv p Q s) (hQ : ∀ a s', Q a s' → R a s') :
    wp exec rely inv p R s := by
  induction p generalizing s with
  | ret a => exact fun s' hs' => ⟨(h s' hs').1, hQ a s' (h s' hs').2⟩
  | op o k ih => exact fun s' hs' => ⟨(h s' hs').1, ih _ (h s' hs').2⟩

theorem wp_bind {f : α → Prog Ans β} {Q : β → σ → Prop}
    (h : wp exec rely inv p (fun a s' => wp exec rely inv (f a) Q s') s) :
    wp exec rely inv (p >>= f) Q s := by
  induction p generalizing s with
  | ret a => exact (h s .refl).2
  | op o k ih => exact fun s' hs' => ⟨(h s' hs').1, ih _ (h s' hs').2⟩

/-- An assertion that survives `rely` carries over to the next operation. -/
theorem wp_op {P : σ → Prop} {o : Op} {k : Ans o → Prog Ans α}
    (hstable : ∀ s s', P s → rely s s' → P s') (hinv : ∀ s, P s → inv s) (hP : P s)
    (h : ∀ s, P s → wp exec rely inv (k (exec o s).1) Q (exec o s).2) :
    wp exec rely inv (.op o k) Q s := by
  intro s' hs'
  have hP' : P s' := stable_run hstable hP hs'
  exact ⟨hinv s' hP', h s' hP'⟩

theorem wp_ret {P : σ → Prop} {a : α} (hstable : ∀ s s', P s → rely s s' → P s')
    (hinv : ∀ s, P s → inv s) (hP : P s) (h : ∀ s, P s → Q a s) :
    wp exec rely inv (.ret a) Q s := by
  intro s' hs'
  have hP' : P s' := stable_run hstable hP hs'
  exact ⟨hinv s' hP', h s' hP'⟩

/-- The loop rule: an assertion of the counter that every turn re-establishes. -/
theorem wp_forRange {I : ℕ → σ → Prop} {body : ℕ → Prog Ans Unit} (n : ℕ)
    (hstable : ∀ s s', I 0 s → rely s s' → I 0 s') (hinv : ∀ s, I 0 s → inv s) (h0 : I 0 s)
    (hbody : ∀ i < n, ∀ s, I i s → wp exec rely inv (body i) (fun _ => I (i + 1)) s) :
    wp exec rely inv (Prog.forRange n body) (fun _ => I n) s := by
  induction n with
  | zero => exact wp_ret hstable hinv h0 fun _ h => h
  | succ n ih =>
    apply wp_bind
    apply wp_mono (ih fun i hi => hbody i (by omega))
    intro _ s' hs'
    exact hbody n (by omega) s' hs'

end Rules

attribute [irreducible] wp

end KallarOS.Programs
