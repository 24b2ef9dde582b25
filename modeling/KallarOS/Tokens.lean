import Mathlib

namespace KallarOS.Tokens
open Finset

variable {T : Type*}

/-- A lock that hands out tokens: how many are out, and who waits for one. -/
@[ext]
structure Bank (T : Type*) where
  taken : ℕ
  waiters : List T

def Bank.acquire (b : Bank T) (capacity : ℕ) (t : T) : Bank T :=
  if b.taken < capacity then { b with taken := b.taken + 1 }
  else { b with waiters := b.waiters ++ [t] }

/-- The token goes to the first waiter, or back to the bank. -/
def Bank.release (b : Bank T) : Bank T :=
  if b.waiters = [] then { b with taken := b.taken - 1 } else { b with waiters := b.waiters.tail }

/-- The tokens that are out and asked for are those the threads of `S` still owe. -/
structure Balanced (capacity : ℕ) (S : Finset T) (owed : T → ℤ) (opening : ℤ) (b : Bank T) : Prop where
  le : b.taken ≤ capacity
  full : b.waiters ≠ [] → b.taken = capacity
  total : (b.taken : ℤ) + b.waiters.length = ∑ t ∈ S, owed t + opening

variable {capacity : ℕ} {S S' : Finset T} {owed owed' : T → ℤ} {opening : ℤ} {b : Bank T} {t : T}

/-- A lock that has just been made. -/
theorem Balanced.empty (hsum : ∑ t ∈ S, owed t + opening = 0) : Balanced capacity S owed opening ⟨0, []⟩ :=
  ⟨Nat.zero_le _, fun hne => absurd rfl hne, by rw [hsum]; rfl⟩

theorem Balanced.congr (h : Balanced capacity S owed opening b)
    (hsum : ∑ t ∈ S', owed' t = ∑ t ∈ S, owed t) : Balanced capacity S' owed' opening b :=
  ⟨h.le, h.full, by rw [hsum, h.total]⟩

/-- The caller owes one token more, whether it has got it or waits for it. -/
theorem Balanced.acquire (h : Balanced capacity S owed opening b)
    (hsum : ∑ t ∈ S', owed' t = ∑ t ∈ S, owed t + 1) (t : T) :
    Balanced capacity S' owed' opening (b.acquire capacity t) := by
  have hle := h.le
  have htotal := h.total
  rw [Bank.acquire]
  split_ifs with hlt
  · refine ⟨hlt, fun hne => ?_, ?_⟩
    · have := h.full hne
      omega
    · push_cast
      linarith
  · refine ⟨hle, fun _ => by dsimp only; omega, ?_⟩
    rw [List.length_append, List.length_singleton]
    push_cast
    linarith

/-- A token that is owed is out, so giving it back counts. -/
theorem Balanced.release (h : Balanced capacity S owed opening b)
    (hsum : ∑ t ∈ S', owed' t = ∑ t ∈ S, owed t - 1) (hpos : 0 < ∑ t ∈ S, owed t + opening) :
    Balanced capacity S' owed' opening b.release := by
  have hle := h.le
  have htotal := h.total
  rw [Bank.release]
  split_ifs with hnil
  · rw [hnil, List.length_nil] at htotal
    have htaken : 0 < b.taken := by
      push_cast at htotal
      omega
    refine ⟨by dsimp only; omega, fun hne => absurd hnil hne, ?_⟩
    rw [hnil, List.length_nil]
    push_cast [Nat.cast_sub htaken]
    push_cast at htotal
    linarith
  · have hlen := List.length_pos_iff.mpr hnil
    refine ⟨hle, fun _ => h.full hnil, ?_⟩
    rw [List.length_tail]
    push_cast [Nat.cast_sub hlen]
    linarith

section Holders

variable [DecidableEq T] (h : Balanced capacity S owed 0 b) (hnodup : b.waiters.Nodup)
  (hwaiters : ∀ t ∈ b.waiters, t ∈ S ∧ owed t = 1)
include h hnodup hwaiters

/-- The threads that hold a token are no more than the tokens. -/
theorem Balanced.card_le (hnonneg : ∀ t ∈ S, 0 ≤ owed t) {H : Finset T}
    (hH : ∀ t ∈ H, t ∈ S ∧ t ∉ b.waiters ∧ owed t = 1) : H.card ≤ capacity := by
  have hdisj : Disjoint H b.waiters.toFinset := by
    apply disjoint_left.mpr
    intro t ht hw
    exact (hH t ht).2.1 (List.mem_toFinset.mp hw)
  have hsub : H ∪ b.waiters.toFinset ⊆ S := by
    apply union_subset
    · exact fun t ht => (hH t ht).1
    · exact fun t ht => (hwaiters t (List.mem_toFinset.mp ht)).1
  have hone : ∑ t ∈ H ∪ b.waiters.toFinset, owed t = H.card + b.waiters.length := by
    have hall : ∀ t ∈ H ∪ b.waiters.toFinset, owed t = 1 := by
      intro t ht
      rcases mem_union.mp ht with ht | ht
      · exact (hH t ht).2.2
      · exact (hwaiters t (List.mem_toFinset.mp ht)).2
    rw [sum_congr rfl hall, sum_const, nsmul_one, card_union_of_disjoint hdisj,
      List.toFinset_card_of_nodup hnodup]
    push_cast
    rfl
  have hsum := sum_le_sum_of_subset_of_nonneg hsub fun t ht _ => hnonneg t ht
  have htotal := h.total
  have hle := h.le
  omega

/-- While threads wait, one that does not wait owes a token. -/
theorem Balanced.exists_holder (hne : b.waiters ≠ []) (hcap : 0 < capacity) :
    ∃ t ∈ S, t ∉ b.waiters ∧ 0 < owed t := by
  by_contra! hnone
  have hsub : b.waiters.toFinset ⊆ S := fun t ht => (hwaiters t (List.mem_toFinset.mp ht)).1
  have hrest : ∑ t ∈ S, owed t ≤ ∑ t ∈ b.waiters.toFinset, owed t := by
    rw [← sum_sdiff hsub]
    have hzero : ∑ t ∈ S \ b.waiters.toFinset, owed t ≤ 0 := by
      apply sum_nonpos
      intro t ht
      obtain ⟨htS, hw⟩ := mem_sdiff.mp ht
      exact hnone t htS fun hmem => hw (List.mem_toFinset.mpr hmem)
    linarith
  have hone : ∑ t ∈ b.waiters.toFinset, owed t = b.waiters.length := by
    rw [sum_congr rfl fun t ht => (hwaiters t (List.mem_toFinset.mp ht)).2, sum_const, nsmul_one,
      List.toFinset_card_of_nodup hnodup]
  have htotal := h.total
  have hfull := h.full hne
  omega

end Holders

end KallarOS.Tokens
