import KallarOS.SchedMutex

namespace KallarOS.Sched
open Function Relation Chains

namespace Calls

variable {g : Calls} {a : Plan} {e : Event} {t m : ℕ}

/-- Tokens are neither lost nor made up. -/
structure Balanced (g : Calls) (a : Plan) (m : ℕ) : Prop where
  max_lt : a.maxCount m < 2 ^ 16
  count_le : a.currentCount m ≤ a.maxCount m
  full : a.queue (.semaphore m) ≠ [] → a.currentCount m = a.maxCount m
  tokens : g.completed m = g.released m + a.currentCount m

section Counting

/-- The call of this step does not change who waits. -/
theorem Inv.waiting_enter (h : g.Inv a) (ha : a.Resting) (he : a.Allowed e) {k : Lock} :
    t ∈ (g.enter a.toCommon e).waiting a.toCommon k ↔ t ∈ a.locks.waiters k := by
  rw [← h.waiting ha.toPlaced, Calls.waiting, Calls.waiting, Finset.mem_filter, Finset.mem_filter]
  apply and_congr_right
  intro hal
  apply and_congr_left
  intro hs
  constructor
  · intro hc
    rcases call_enter hc with hc | ⟨htc, -⟩
    · exact hc
    · have hrun := ha.running
      rw [← htc, hs] at hrun
      cases hrun
  · intro hc
    have hk := (h.waiting ha.toPlaced).mp (Finset.mem_filter.mpr ⟨hal, hc, hs⟩)
    rw [Inv.enter_waiter ha.toPlaced he hk, hc]

/-- A waiter is blocked until its queue lets it go. -/
theorem blocked_step (ha : a.Resting) (he : a.Allowed e) {k : Lock} (hk : t ∈ a.locks.waiters k) :
    ((a.step e).tcb t).state = .blocked ↔ t ∈ (a.step e).locks.waiters k := by
  have hb := ha.step he
  have hgrows := ha.grows_step (e := e)
  have hdet : t ∉ a.queue .detached := fun hd => by
    have hp := ha.apart .detached k.place t hd hk
    cases k <;> simp [Lock.place] at hp
  have hal := hgrows.alive t (ha.alive k.place t hk) hdet
  have hidle : t ≠ (a.step e).idleThread := by
    rw [hgrows.idleThread]
    exact fun hc => ha.idle_free k.place (hc ▸ hk)
  rw [hb.toPlaced.blocked_iff hal hidle]
  constructor
  · rintro ⟨k', hk'⟩
    have hmem := hk'
    rw [ha.locks_step e] at hmem
    rcases Locks.mem_waiters_step hmem with hmem | ⟨htc, -⟩
    · rwa [ha.toPlaced.waiters_apart hk hmem]
    · exact absurd htc (ha.toPlaced.waiter_ne_current hk)
  · exact fun hk' => ⟨k, hk'⟩

/-- The acquires this step completes are those of the waiters it lets go. -/
theorem Inv.completions (h : g.Inv a) (ha : a.Resting) (he : a.Allowed e) (k : Lock) :
    (((g.enter a.toCommon e).waiting a.toCommon k).filter
      fun t => ((a.step e).tcb t).state ≠ .blocked) =
    (a.locks.waiters k).toFinset.filter fun t => t ∉ (a.step e).locks.waiters k := by
  ext t
  rw [Finset.mem_filter, Finset.mem_filter, h.waiting_enter ha he, List.mem_toFinset]
  exact and_congr_right fun hk => not_congr (blocked_step ha he hk)

/-- The caller of an acquire is blocked when it was put into the queue. -/
theorem blocked_caller (ha : a.Resting) (he : a.Allowed e) {k : Lock} (hacq : e.acquires = some k) :
    ((a.step e).tcb a.currentThread).state = .blocked ↔
      a.currentThread ∈ (a.step e).locks.waiters k := by
  have hgrows := ha.grows_step (e := e)
  have hbusy := he.busy fun ht => by
    rw [ht] at hacq
    cases hacq
  have hal := hgrows.alive _ ha.current (ha.toPlaced.free _)
  rw [(ha.step he).toPlaced.blocked_iff hal (by rw [hgrows.idleThread]; exact hbusy)]
  refine ⟨fun ⟨k', hk'⟩ => ?_, fun hk' => ⟨k, hk'⟩⟩
  have hmem := hk'
  rw [ha.locks_step e] at hmem
  rcases Locks.mem_waiters_step hmem with hmem | ⟨-, hk⟩
  · exact absurd hmem (ha.toPlaced.free k'.place)
  · rw [hacq] at hk
    cases hk
    exact hk'

theorem completed_leave {after : Common} :
    (g.leave after).completed = g.completed ∧ (g.leave after).released = g.released := by
  rw [leave]
  split <;> exact ⟨rfl, rfl⟩

theorem tally_grant {before after : Common} :
    ((g.grant before after e).tally before after e).completed = (g.tally before after e).completed ∧
      ((g.grant before after e).tally before after e).released = (g.tally before after e).released := by
  have hite : ∀ (c : Prop) [Decidable c] (s : Finset ℕ),
      ((if c then g else { g with granted := s }).tally before after e).completed =
        (g.tally before after e).completed ∧
      ((if c then g else { g with granted := s }).tally before after e).released =
        (g.tally before after e).released := by
    intro c _ s
    split_ifs <;> exact ⟨rfl, rfl⟩
  cases e with
  | acquireMutex m => exact hite _ _
  | releaseMutex m => exact hite _ _
  | _ => exact ⟨rfl, rfl⟩

theorem completed_observe {before after : Common} :
    (g.observe before after e).completed = ((g.enter before e).tally before after e).completed ∧
      (g.observe before after e).released = ((g.enter before e).tally before after e).released :=
  ⟨completed_leave.1.trans tally_grant.1, completed_leave.2.trans tally_grant.2⟩

/-- What the observer counts in one step, read off the wait queue. -/
theorem Inv.completed_step (h : g.Inv a) (ha : a.Resting) (he : a.Allowed e) (m : ℕ) :
    (g.observe a.toCommon (a.step e).toCommon e).completed m = (g.enter a.toCommon e).completed m +
      ((a.locks.waiters (.semaphore m)).toFinset.filter
        fun t => t ∉ (a.step e).locks.waiters (.semaphore m)).card +
      if e = .acquireSemaphore m ∧ a.currentThread ∉ (a.step e).locks.waiters (.semaphore m)
        then 1 else 0 := by
  rw [completed_observe.1, ← h.completions ha he]
  change _ + (if _ then 1 else 0) = _
  congr 1
  refine if_congr (and_congr_right fun hacq => ?_) rfl rfl
  rw [hacq] at he
  rw [hacq]
  exact not_congr (blocked_caller ha he rfl)

theorem Inv.released_step (h : g.Inv a) (ha : a.Resting) (he : a.Allowed e) (m : ℕ) :
    (g.observe a.toCommon (a.step e).toCommon e).released m = (g.enter a.toCommon e).released m +
      if e = .releaseSemaphore m ∧ (a.queue (.semaphore m) ≠ [] ∨ a.currentCount m ≠ 0)
        then 1 else 0 := by
  rw [completed_observe.2]
  change _ + (if _ then 1 else 0) = _
  congr 1
  refine if_congr (and_congr_right fun _ => or_congr_left ⟨fun ⟨t, ht⟩ => ?_, fun hne => ?_⟩) rfl rfl
  · exact List.ne_nil_of_mem ((h.waiting_enter ha he).mp ht)
  · obtain ⟨t, ht⟩ := List.exists_mem_of_ne_nil _ hne
    exact ⟨t, (h.waiting_enter ha he).mpr ht⟩

end Counting

section Balance

/-- A queue that loses nobody completes nothing. -/
theorem filter_gone_eq_empty {xs ys : List ℕ} (h : ∀ t ∈ xs, t ∈ ys) :
    xs.toFinset.filter (fun t => t ∉ ys) = ∅ := by
  refine Finset.filter_eq_empty_iff.mpr fun t ht => ?_
  exact not_not.mpr (h t (List.mem_toFinset.mp ht))

theorem filter_gone_tail {x : ℕ} {xs : List ℕ} (h : (x :: xs).Nodup) :
    (x :: xs).toFinset.filter (fun t => t ∉ xs) = {x} := by
  obtain ⟨hx, -⟩ := List.nodup_cons.mp h
  ext t
  simp only [Finset.mem_filter, List.mem_toFinset, List.mem_cons, Finset.mem_singleton]
  constructor
  · rintro ⟨rfl | ht, hnot⟩
    · rfl
    · exact absurd ht hnot
  · rintro rfl
    exact ⟨.inl rfl, hx⟩

/-- Events about other objects leave the semaphore and its tokens alone. -/
theorem semaphore_untouched (g : Calls) (a : Plan)
    (hquiet : e ≠ .acquireSemaphore m ∧ e ≠ .releaseSemaphore m ∧
      ∀ max, e ≠ .createSemaphore m max) :
    (a.locks.step a.currentThread e).waiters (.semaphore m) = a.queue (.semaphore m) ∧
      (a.locks.step a.currentThread e).count m = a.currentCount m ∧
      (a.locks.step a.currentThread e).max m = a.maxCount m ∧
      (g.enter a.toCommon e).completed m = g.completed m ∧
      (g.enter a.toCommon e).released m = g.released m := by
  cases e with
  | acquireMutex m' =>
    rw [Locks.step]
    split_ifs
    · exact ⟨rfl, rfl, rfl, rfl, rfl⟩
    · exact ⟨Locks.waiters_wait_of_ne (by simp), rfl, rfl, rfl, rfl⟩
  | releaseMutex m' =>
    have hne : Lock.semaphore m ≠ .mutex m' := by simp
    exact ⟨Locks.waiters_wake_of_ne (l := a.locks) hne, rfl, rfl, rfl, rfl⟩
  | acquireSemaphore m' =>
    have hne : m ≠ m' := fun hm => hquiet.1 (by rw [hm])
    rw [Locks.step]
    split_ifs
    · exact ⟨rfl, update_of_ne hne _ _, rfl, rfl, rfl⟩
    · exact ⟨Locks.waiters_wait_of_ne (by simpa using hne), rfl, rfl, rfl, rfl⟩
  | releaseSemaphore m' =>
    have hne : m ≠ m' := fun hm => hquiet.2.1 (by rw [hm])
    rw [Locks.step]
    split_ifs
    · exact ⟨rfl, update_of_ne hne _ _, rfl, rfl, rfl⟩
    · exact ⟨Locks.waiters_wake_of_ne (by simpa using hne), rfl, rfl, rfl, rfl⟩
  | createSemaphore m' maxCount =>
    have hne : m ≠ m' := fun hm => hquiet.2.2 maxCount (by rw [hm])
    exact ⟨rfl, update_of_ne hne _ _, update_of_ne hne _ _, update_of_ne hne _ _,
      update_of_ne hne _ _⟩
  | _ => exact ⟨rfl, rfl, rfl, rfl, rfl⟩

/-- Events that are not about semaphore `m`. -/
theorem Balanced.other (h : g.Balanced a m) (hi : g.Inv a) (ha : a.Resting) (he : a.Allowed e)
    (hquiet : e ≠ .acquireSemaphore m ∧ e ≠ .releaseSemaphore m ∧
      ∀ max, e ≠ .createSemaphore m max) :
    (g.observe a.toCommon (a.step e).toCommon e).Balanced (a.step e) m := by
  obtain ⟨hw, hc, hx, hcomp, hrel⟩ := semaphore_untouched g a hquiet
  have hqueue : (a.step e).queue (.semaphore m) = a.queue (.semaphore m) :=
    (ha.waiters_step e (.semaphore m)).trans hw
  have hcount : (a.step e).currentCount m = a.currentCount m := by rw [ha.currentCount_step, hc]
  have hmax : (a.step e).maxCount m = a.maxCount m := by rw [ha.maxCount_step, hx]
  refine ⟨hmax ▸ h.max_lt, by rw [hcount, hmax]; exact h.count_le, ?_, ?_⟩
  · rw [hqueue, hcount, hmax]
    exact h.full
  · have hgone : (a.locks.waiters (.semaphore m)).toFinset.filter
        (fun t => t ∉ (a.step e).locks.waiters (.semaphore m)) = ∅ :=
      filter_gone_eq_empty fun t ht => by
        change t ∈ (a.step e).queue (.semaphore m)
        rw [hqueue]
        exact ht
    rw [hi.completed_step ha he, hi.released_step ha he, hgone, hcomp, hrel, hcount,
      if_neg fun hc => hquiet.1 hc.1, if_neg fun hc => hquiet.2.1 hc.1]
    exact h.tokens

theorem Balanced.acquire (h : g.Balanced a m) (hi : g.Inv a) (ha : a.Resting)
    (he : a.Allowed (.acquireSemaphore m)) :
    (g.observe a.toCommon (a.step (.acquireSemaphore m)).toCommon (.acquireSemaphore m)).Balanced
      (a.step (.acquireSemaphore m)) m := by
  have hmaxlt := h.max_lt
  have hle := h.count_le
  have htokens := h.tokens
  have hfree : a.currentThread ∉ a.locks.waiters (.semaphore m) := ha.toPlaced.free _
  have hqueue := ha.waiters_step (.acquireSemaphore m) (.semaphore m)
  have hcount := congrFun (ha.currentCount_step (.acquireSemaphore m)) m
  have hmax := congrFun (ha.maxCount_step (.acquireSemaphore m)) m
  have hreleased := hi.released_step ha he m
  have hcompleted := hi.completed_step ha he m
  rw [if_neg (by simp)] at hreleased
  change _ = g.released m + 0 at hreleased
  by_cases hlt : a.locks.count m < a.locks.max m
  · rw [Locks.step, if_pos hlt] at hqueue hcount hmax
    have hlt' : a.currentCount m < a.maxCount m := hlt
    have hcount' : (a.step (.acquireSemaphore m)).currentCount m = a.currentCount m + 1 := by
      refine (hcount.trans (update_self ..)).trans (Nat.mod_eq_of_lt ?_)
      change a.currentCount m + 1 < 2 ^ 16
      omega
    have hmax' : (a.step (.acquireSemaphore m)).maxCount m = a.maxCount m := hmax
    -- threads wait only while all tokens are out
    have hempty : a.queue (.semaphore m) = [] := by
      by_contra hne
      have := h.full hne
      omega
    rw [hqueue, filter_gone_eq_empty fun t ht => ht, Finset.card_empty, if_pos ⟨rfl, hfree⟩]
      at hcompleted
    change _ = g.completed m + 0 + 1 at hcompleted
    exact ⟨by omega, by omega, fun hne => absurd (hqueue.trans hempty) hne, by omega⟩
  -- no token: the caller joins the queue and nothing is completed
  · rw [Locks.step, if_neg hlt] at hqueue hcount hmax
    have hlt' : ¬ a.currentCount m < a.maxCount m := hlt
    have hcount' : (a.step (.acquireSemaphore m)).currentCount m = a.currentCount m := hcount
    have hmax' : (a.step (.acquireSemaphore m)).maxCount m = a.maxCount m := hmax
    rw [hqueue, Locks.waiters_wait_self, filter_gone_eq_empty fun t ht => by simp [ht],
      Finset.card_empty, if_neg (by simp)] at hcompleted
    change _ = g.completed m + 0 + 0 at hcompleted
    exact ⟨by omega, by omega, fun _ => by omega, by omega⟩

/-- A release with waiters lets the first one go and keeps the count. -/
theorem Inv.release_cons {ts : List ℕ} (hi : g.Inv a) (ha : a.Resting)
    (he : a.Allowed (.releaseSemaphore m)) (hq : a.queue (.semaphore m) = t :: ts) :
    (a.step (.releaseSemaphore m)).currentCount = a.currentCount ∧
      (a.step (.releaseSemaphore m)).queue (.semaphore m) = ts ∧
      (g.observe a.toCommon (a.step (.releaseSemaphore m)).toCommon
        (.releaseSemaphore m)).released m = g.released m + 1 ∧
      (g.observe a.toCommon (a.step (.releaseSemaphore m)).toCommon
        (.releaseSemaphore m)).completed m = g.completed m + 1 := by
  have hw : a.locks.waiters (.semaphore m) = t :: ts := hq
  have hnd := ha.nodup (.semaphore m)
  rw [hq] at hnd
  have hstep : a.locks.step a.currentThread (.releaseSemaphore m) = a.locks.wake (.semaphore m) :=
    if_neg (by simp [hw])
  have hqueue := ha.waiters_step (.releaseSemaphore m) (.semaphore m)
  rw [hstep, Locks.waiters_wake_self, hw, List.tail_cons] at hqueue
  refine ⟨?_, hqueue, ?_, ?_⟩
  · rw [ha.currentCount_step, hstep]
    rfl
  · rw [hi.released_step ha he, if_pos ⟨rfl, .inl (by simp [hq])⟩]
    rfl
  · rw [hi.completed_step ha he, hqueue, hw, filter_gone_tail hnd, Finset.card_singleton,
      if_neg (by simp)]
    rfl

/-- A release without waiters gives back a token if one is out. -/
theorem Inv.release_nil (hi : g.Inv a) (ha : a.Resting) (he : a.Allowed (.releaseSemaphore m))
    (hq : a.queue (.semaphore m) = []) :
    (a.step (.releaseSemaphore m)).currentCount m = a.currentCount m - 1 ∧
      (a.step (.releaseSemaphore m)).queue (.semaphore m) = [] ∧
      (g.observe a.toCommon (a.step (.releaseSemaphore m)).toCommon
        (.releaseSemaphore m)).released m = g.released m + (if a.currentCount m = 0 then 0 else 1) ∧
      (g.observe a.toCommon (a.step (.releaseSemaphore m)).toCommon
        (.releaseSemaphore m)).completed m = g.completed m := by
  have hw : a.locks.waiters (.semaphore m) = [] := hq
  have hqueue := ha.waiters_step (.releaseSemaphore m) (.semaphore m)
  rw [Locks.step, if_pos hw] at hqueue
  have hcount := congrFun (ha.currentCount_step (.releaseSemaphore m)) m
  rw [Locks.step, if_pos hw] at hcount
  refine ⟨hcount.trans (update_self ..), hqueue.trans hw, ?_, ?_⟩
  · rw [hi.released_step ha he]
    simp only [hq, ne_eq, not_true_eq_false, false_or, true_and, ite_not]
    rfl
  · rw [hi.completed_step ha he, hqueue, hw, filter_gone_eq_empty fun t ht => ht,
      Finset.card_empty, if_neg (by simp)]
    rfl

theorem Balanced.release (h : g.Balanced a m) (hi : g.Inv a) (ha : a.Resting)
    (he : a.Allowed (.releaseSemaphore m)) :
    (g.observe a.toCommon (a.step (.releaseSemaphore m)).toCommon (.releaseSemaphore m)).Balanced
      (a.step (.releaseSemaphore m)) m := by
  have hmaxlt := h.max_lt
  have hle := h.count_le
  have htokens := h.tokens
  have hmax : (a.step (.releaseSemaphore m)).maxCount m = a.maxCount m := by
    rw [ha.maxCount_step, Locks.step]
    split_ifs <;> rfl
  cases hq : a.queue (.semaphore m) with
  | nil =>
    obtain ⟨hcount, hqueue, hreleased, hcompleted⟩ := hi.release_nil ha he hq
    refine ⟨by omega, by omega, fun hne => absurd hqueue hne, ?_⟩
    rw [hcompleted, hreleased, hcount]
    split_ifs <;> omega
  | cons x xs =>
    obtain ⟨hcount, -, hreleased, hcompleted⟩ := hi.release_cons ha he hq
    have hfull := h.full (by simp [hq])
    rw [← hcount] at hle hfull htokens
    exact ⟨by omega, by omega, fun _ => by omega, by omega⟩

theorem Balanced.create {max : ℕ} (hi : g.Inv a) (ha : a.Resting)
    (he : a.Allowed (.createSemaphore m max)) :
    (g.observe a.toCommon (a.step (.createSemaphore m max)).toCommon (.createSemaphore m max)).Balanced
      (a.step (.createSemaphore m max)) m := by
  have hempty : a.queue (.semaphore m) = [] :=
    not_not.mp fun hne => he.fits.1 (ha.semaphores m hne)
  have hw : a.locks.waiters (.semaphore m) = [] := hempty
  have hcount : (a.step (.createSemaphore m max)).currentCount m = 0 := update_self ..
  have hmax : (a.step (.createSemaphore m max)).maxCount m = max := update_self ..
  refine ⟨by rw [hmax]; exact he.fits.2, by rw [hcount]; exact Nat.zero_le _,
    fun hne => absurd hempty hne, ?_⟩
  rw [hi.completed_step ha he, hi.released_step ha he, hw, hcount, if_neg (by simp), if_neg (by simp)]
  simp [enter]

/-- One operation keeps every semaphore in balance. -/
theorem Balanced.step (h : ∀ m ∈ a.semaphores, g.Balanced a m) (hi : g.Inv a) (ha : a.Resting)
    (he : a.Allowed e) : ∀ m ∈ (a.step e).semaphores,
      (g.observe a.toCommon (a.step e).toCommon e).Balanced (a.step e) m := by
  intro m hm
  by_cases hnew : ∃ max, e = .createSemaphore m max
  · obtain ⟨max, rfl⟩ := hnew
    exact Balanced.create hi ha he
  · have hold : m ∈ a.semaphores := (ha.grows_step.semaphores m hm).resolve_right hnew
    by_cases hacq : e = .acquireSemaphore m
    · subst hacq
      exact (h m hold).acquire hi ha he
    by_cases hrel : e = .releaseSemaphore m
    · subst hrel
      exact (h m hold).release hi ha he
    · exact (h m hold).other hi ha he ⟨hacq, hrel, fun max hc => hnew ⟨max, hc⟩⟩

end Balance

end Calls

section Results

def SemaphoreStep (k k' : Observed) : Prop := ∃ e, k.Next e k'

variable {k k' : Observed} {a : Plan}

theorem Steady.semaphore_run (hs : Steady k.state a) (hi : k.calls.Inv a)
    (h : ∀ m ∈ a.semaphores, k.calls.Balanced a m) (hr : ReflTransGen SemaphoreStep k k') :
    ∃ a', Steady k'.state a' ∧ k'.calls.Inv a' ∧ ∀ m ∈ a'.semaphores, k'.calls.Balanced a' m := by
  induction hr with
  | refl => exact ⟨a, hs, hi, h⟩
  | tail _ hstep ih =>
    obtain ⟨a', hs', hi', h'⟩ := ih
    obtain ⟨e, hnext⟩ := hstep
    obtain ⟨hs'', hi'', hcalls⟩ := hnext.inv hs' hi'
    refine ⟨_, hs'', hi'', ?_⟩
    rw [hcalls]
    exact Calls.Balanced.step h' hi' hs'.resting (hs'.rep.allowed.mp hnext.1)

/-- At every point of every run: the count is within its bounds, threads wait only
when it is at its maximum, and the completed acquires are the effective releases and
the tokens that are out. A release with waiters completes the acquire of the one
that has waited longest and of no other, and keeps the count; without waiters it
gives a token back if one is out. -/
theorem tokens_conserved {s : SchedState} {root idle cleaner : ℕ} (hb : Boot s)
    (hm : Blocks root idle cleaner) :
    ∃ s₀, initializeMultitasking s root idle cleaner = .ok s₀ ∧
      ∀ k, ReflTransGen SemaphoreStep ⟨s₀, Calls.start⟩ k → ∀ m ∈ k.state.semaphores,
        k.state.currentCount m ≤ k.state.maxCount m ∧
        k.calls.completed m = k.calls.released m + k.state.currentCount m ∧
        ∃ q, Linked 0 k.state.next (k.state.semFirst m) q ∧
          q.Pairwise (fun t u => k.calls.since t < k.calls.since u) ∧
          (∀ t, t ∈ q ↔ t ∈ k.calls.waiting k.state.toCommon (.semaphore m)) ∧
          (q ≠ [] → k.state.currentCount m = k.state.maxCount m) ∧
          ∀ k', k.Next (.releaseSemaphore m) k' →
            (∀ t ts, q = t :: ts → k'.state.currentCount m = k.state.currentCount m ∧
              k'.calls.released m = k.calls.released m + 1 ∧
              k'.calls.completed m = k.calls.completed m + 1 ∧
              Linked 0 k'.state.next (k'.state.semFirst m) ts ∧
              ∀ u ∈ q, (k'.state.tcb u).state = .blocked ↔ u ≠ t) ∧
            (q = [] → k'.state.currentCount m = k.state.currentCount m - 1 ∧
              k'.calls.completed m = k.calls.completed m ∧
              (k'.calls.released m = k.calls.released m ↔ k.state.currentCount m = 0)) := by
  obtain ⟨s₀, hs₀, h₀⟩ := initializeMultitasking_steady hb hm
  refine ⟨s₀, hs₀, fun k hr m hmem => ?_⟩
  have hstart : ∀ m ∈ (startPlan s root idle cleaner).semaphores,
      Calls.start.Balanced (startPlan s root idle cleaner) m := fun m hm => by
    have hnone : (startPlan s root idle cleaner).semaphores = ∅ := hb.semaphores
    rw [hnone] at hm
    cases hm
  obtain ⟨a, hs, hi, h⟩ := Steady.semaphore_run (k := ⟨s₀, Calls.start⟩) h₀ start_inv hstart hr
  have hcommon := hs.rep.common
  rw [congrArg Common.semaphores hcommon] at hmem
  have hbal := h m hmem
  refine ⟨?_, ?_, a.queue (.semaphore m), hs.rep.queues.linked (.semaphore m),
    hi.ordered (.semaphore m), fun t => ?_, ?_, fun k' hnext => ?_⟩
  · rw [hcommon]
    exact hbal.count_le
  · rw [hcommon]
    exact hbal.tokens
  · rw [hcommon]
    exact (hi.waiting (k := .semaphore m) hs.resting.toPlaced).symm
  · rw [hcommon]
    exact hbal.full
  · obtain ⟨hs', -, hcalls⟩ := hnext.inv hs hi
    have he := hs.rep.allowed.mp hnext.1
    have hlinked := hs'.rep.queues.linked (.semaphore m)
    refine ⟨fun t ts hq => ?_, fun hq => ?_⟩
    · obtain ⟨hcount, hqueue, hreleased, hcompleted⟩ := hi.release_cons hs.resting he hq
      rw [hs'.rep.common, hcommon, hcalls, hcount]
      rw [hqueue] at hlinked
      refine ⟨rfl, hreleased, hcompleted, hlinked, fun u hu => ?_⟩
      have hnd := hs.resting.nodup (.semaphore m)
      rw [hq, List.nodup_cons] at hnd
      rw [Calls.blocked_step (k := .semaphore m) hs.resting he hu]
      change u ∈ (a.step (.releaseSemaphore m)).queue (.semaphore m) ↔ _
      rw [hqueue]
      rw [hq, List.mem_cons] at hu
      refine ⟨fun hmem hut => hnd.1 (hut ▸ hmem), fun hne => hu.resolve_left hne⟩
    · obtain ⟨hcount, -, hreleased, hcompleted⟩ := hi.release_nil hs.resting he hq
      rw [hs'.rep.common, hcommon, hcalls, hcount, hreleased, hcompleted]
      refine ⟨rfl, rfl, ?_⟩
      split_ifs with h0
      · simp [h0]
      · simp [h0]

theorem Watched.follow {x : Plan × Calls} (h : Watched k x) (es : List Event)
    (hes : Along watch (fun x e => x.1.Allowed e) x es) :
    ∃ k', ReflTransGen SemaphoreStep k k' ∧ Watched k' (es.foldl watch x) := by
  refine hes.follow (fun h he => ?_) h
  obtain ⟨k', hnext, h'⟩ := h.exists_next he
  exact ⟨k', ⟨_, hnext⟩, h'⟩

/-- The root thread takes the only token and sleeps, the cleaner blocks on the semaphore,
and a third thread is ticked until the root is awake. -/
def tokenEvents : List Event :=
  [.createSemaphore 64 1, .acquireSemaphore 64, .createKernelThread 80, .threadSleep 2,
    .acquireSemaphore 64, .tick, .tick, .threadSleep 5]

/-- The root's release hands its token to the cleaner. -/
theorem tokens_conserved_sample :
    ∃ s₀ k k', initializeMultitasking zeroState 16 32 48 = .ok s₀ ∧
      ReflTransGen SemaphoreStep ⟨s₀, Calls.start⟩ k ∧
      k.state.currentCount 64 = 1 ∧ k.calls.completed 64 = k.calls.released 64 + 1 ∧
      k.Next (.releaseSemaphore 64) k' ∧ k'.state.currentCount 64 = 1 ∧
      k'.calls.released 64 = 1 ∧ k'.calls.completed 64 = 2 ∧ (k'.state.tcb 48).state ≠ .blocked := by
  obtain ⟨s₀, hs₀, hrun⟩ := tokens_conserved zeroState_boot sampleBlocks
  obtain ⟨s, hs, h₀⟩ := initializeMultitasking_steady zeroState_boot sampleBlocks
  cases hs.symm.trans hs₀
  have hw : Watched ⟨s₀, Calls.start⟩ (startPlan zeroState 16 32 48, Calls.start) := ⟨h₀, rfl⟩
  obtain ⟨k, hr, h⟩ := hw.follow tokenEvents (by decide +kernel)
  obtain ⟨k', hnext, -⟩ := h.exists_next (e := .releaseSemaphore 64) (by decide +kernel)
  have hmem : 64 ∈ k.state.semaphores := by
    rw [h.steady.rep.common]
    decide +kernel
  obtain ⟨-, hbalance, q, hlinked, -, -, -, hrelease⟩ := hrun k hr 64 hmem
  have hqueue : q = [48] :=
    (hlinked.unique (h.steady.rep.queues.linked (.semaphore 64))).trans (by decide +kernel)
  have hcount : k.state.currentCount 64 = 1 := by
    rw [h.steady.rep.common]
    decide +kernel
  have hreleased : k.calls.released 64 = 0 := by
    rw [h.calls]
    decide +kernel
  obtain ⟨hcount', hreleased', hcompleted', -, hblocked⟩ := (hrelease k' hnext).1 48 [] hqueue
  rw [hcount] at hbalance hcount'
  rw [hreleased] at hreleased'
  rw [hbalance, hreleased] at hcompleted'
  refine ⟨s₀, k, k', hs₀, hr, hcount, hbalance, hnext, hcount', hreleased', hcompleted', ?_⟩
  rw [Ne, hblocked 48 (by simp [hqueue])]
  simp

end Results

end KallarOS.Sched
