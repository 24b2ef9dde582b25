import Mathlib

namespace KallarOS.Waiting

section Ranks

variable (waits goal beat : ℕ → Prop) (rank : ℕ → ℕ) {n : ℕ} [DecidablePred beat]

/-- One step of a wait: it ends, or it goes on and a beat lowers its rank. -/
def Descends (i : ℕ) : Prop :=
  goal (i + 1) ∨ waits (i + 1) ∧ rank (i + 1) + (if beat i then 1 else 0) ≤ rank i

/-- While the wait goes on, the rank pays for the beats. -/
theorem waits_or_reached (h0 : waits 0)
    (hstep : ∀ i < n, waits i → Descends waits goal beat rank i) :
    (∃ m ≤ n, goal m) ∨ waits n ∧ rank n + Nat.count beat n ≤ rank 0 := by
  induction n with
  | zero => exact .inr ⟨h0, by simp⟩
  | succ n ih =>
    rcases ih fun i hi => hstep i (by omega) with ⟨m, hm, hg⟩ | ⟨hw, hr⟩
    · exact .inl ⟨m, by omega, hg⟩
    · rcases hstep n (by omega) hw with hg | ⟨hw', hr'⟩
      · exact .inl ⟨n + 1, le_rfl, hg⟩
      · refine .inr ⟨hw', ?_⟩
        rw [Nat.count_succ]
        omega

/-- A positive rank bounds the number of beats a wait lasts. -/
theorem reached (h0 : waits 0) (hpos : ∀ i ≤ n, waits i → 0 < rank i)
    (hstep : ∀ i < n, waits i → Descends waits goal beat rank i)
    (hn : rank 0 ≤ Nat.count beat n) : ∃ m ≤ n, goal m := by
  rcases waits_or_reached waits goal beat rank h0 hstep with hg | ⟨hw, hr⟩
  · exact hg
  · have := hpos n le_rfl hw
    omega

variable {beat} in
theorem exists_count_ge (h : ∀ n, ∃ m, n ≤ m ∧ beat m) (r : ℕ) : ∃ n, r ≤ Nat.count beat n := by
  have hinf : {m | beat m}.Infinite := Set.infinite_of_forall_exists_gt fun n => by
    obtain ⟨m, hm, hb⟩ := h (n + 1)
    exact ⟨m, hb, by omega⟩
  exact ⟨Nat.nth beat r, (Nat.count_nth_of_infinite hinf r).ge⟩

/-- With beats for ever a wait that starts at any time ends. -/
theorem eventually_reached {k : ℕ} (hk : waits k) (hpos : ∀ i, waits i → 0 < rank i)
    (hstep : ∀ i, waits i → Descends waits goal beat rank i)
    (hbeats : ∀ n, ∃ m, n ≤ m ∧ beat m) : ∃ m, k ≤ m ∧ goal m := by
  have hshift : ∀ n, ∃ m, n ≤ m ∧ beat (k + m) := by
    intro n
    obtain ⟨m, hm, hb⟩ := hbeats (k + n)
    exact ⟨m - k, by omega, by rwa [Nat.add_sub_cancel' (by omega)]⟩
  obtain ⟨n, hn⟩ := exists_count_ge hshift (rank k)
  obtain ⟨m, -, hg⟩ := reached (fun i => waits (k + i)) (fun i => goal (k + i))
    (fun i => beat (k + i)) (fun i => rank (k + i)) hk (fun i _ => hpos _)
    (fun i _ => hstep (k + i)) hn
  exact ⟨k + m, by omega, hg⟩

end Ranks

section Positions

variable {α : Type*} {q : ℕ → List α} {pop : ℕ → Prop} [DecidablePred pop] {n k : ℕ} {x : α}

/-- In a queue that grows at its end and is popped at its head an element moves up one
place with every pop, and with nothing else. -/
theorem position (hstep : ∀ i < n, (if pop i then (q i).tail else q i) <+: q (i + 1))
    (hx : (q 0)[k]? = some x) (hn : Nat.count pop n ≤ k) : (q n)[k - Nat.count pop n]? = some x := by
  induction n with
  | zero => simpa using hx
  | succ n ih =>
    have hlast := hstep n (by omega)
    have hle : Nat.count pop n ≤ k := (Nat.count_monotone pop (Nat.le_succ n)).trans hn
    have hold := ih (fun i hi => hstep i (by omega)) hle
    rw [Nat.count_succ] at hn ⊢
    obtain ⟨ys, hys⟩ := hlast
    rw [← hys]
    split_ifs at hn ⊢
    · have hsucc : k - Nat.count pop n = k - (Nat.count pop n + 1) + 1 := by omega
      rw [hsucc, ← List.getElem?_tail] at hold
      exact List.getElem?_append_left (List.getElem?_eq_some_iff.mp hold).1 ▸ hold
    · exact List.getElem?_append_left (List.getElem?_eq_some_iff.mp hold).1 ▸ hold

/-- An element at position `k` is at the head when the pop after `k` others comes. -/
theorem head_at (hstep : ∀ i < n, (if pop i then (q i).tail else q i) <+: q (i + 1))
    (hx : (q 0)[k]? = some x) (hn : Nat.count pop n = k) : ∃ xs, q n = x :: xs := by
  have hpos := position hstep hx hn.le
  rw [hn, Nat.sub_self] at hpos
  cases hq : q n with
  | nil => simp [hq] at hpos
  | cons y ys =>
    rw [hq, List.getElem?_cons_zero, Option.some.injEq] at hpos
    exact ⟨ys, by rw [hpos]⟩

/-- When more than `k` pops have come, one of them came after exactly `k`. -/
theorem exists_pop (h : k < Nat.count pop n) : ∃ i < n, pop i ∧ Nat.count pop i = k := by
  induction n with
  | zero => simp at h
  | succ n ih =>
    by_cases hlt : k < Nat.count pop n
    · obtain ⟨i, hi, hpop⟩ := ih hlt
      exact ⟨i, by omega, hpop⟩
    · rw [Nat.count_succ] at h
      split_ifs at h with hp
      · exact ⟨n, by omega, hp, by omega⟩
      · omega

end Positions

end KallarOS.Waiting
