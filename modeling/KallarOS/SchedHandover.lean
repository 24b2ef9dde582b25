import KallarOS.SchedCalls
import KallarOS.SchedStarvation

namespace KallarOS.Sched
open Function Relation Chains Waiting

/-- The call that lets the first waiter of a lock go. -/
def Lock.release : Lock → Event
  | mutex m => .releaseMutex m
  | semaphore m => .releaseSemaphore m

/-- A release in `s` has passed the lock on to `t`: the mutex is its own, or it has the
token that was given back. -/
def Lock.HandedTo (s s' : SchedState) (t : ℕ) : Lock → Prop
  | mutex m => s'.ownerThread m = t
  | semaphore m => s'.currentCount m = s.currentCount m

namespace Locks

variable {l : Locks} {k : Lock} {t : ℕ} {e : Event}

theorem waiters_release (l : Locks) (k : Lock) (t : ℕ) :
    (l.step t k.release).waiters k = (l.waiters k).tail := by
  cases k with
  | mutex m => exact waiters_wake_self
  | semaphore m =>
    rw [Lock.release, step]
    split_ifs with hnil
    · rw [hnil]
      rfl
    · exact waiters_wake_self

/-- Only a release takes a waiter off its queue. -/
theorem prefix_waiters_step (he : e ≠ k.release) : l.waiters k <+: (l.step t e).waiters k := by
  have hwait : ∀ k', l.waiters k <+: (l.wait k' t).waiters k := by
    intro k'
    by_cases hk : k = k'
    · rw [← hk, waiters_wait_self]
      exact List.prefix_append _ _
    · rw [waiters_wait_of_ne hk]
  have hwake : ∀ k' : Lock, e = k'.release → l.waiters k <+: (l.wake k').waiters k := by
    rintro k' rfl
    have hk : k ≠ k' := fun hk => he (by rw [hk])
    rw [waiters_wake_of_ne hk]
  cases e with
  | acquireMutex m =>
    rw [step]
    split_ifs
    · exact List.prefix_rfl
    · exact hwait _
  | acquireSemaphore m =>
    rw [step]
    split_ifs
    · exact List.prefix_rfl
    · exact hwait _
  | releaseMutex m => exact hwake (.mutex m) rfl
  | releaseSemaphore m =>
    rw [step]
    split_ifs
    · exact List.prefix_rfl
    · exact hwake (.semaphore m) rfl
  | _ => exact List.prefix_rfl

end Locks

namespace Plan

variable {a : Plan} {t : ℕ} {ts : List ℕ} {e : Event} {k : Lock}

theorem Resting.queue_lock_step (h : a.Resting) (e : Event) (k : Lock) :
    (if e = k.release then (a.queue k.place).tail else a.queue k.place) <+:
      (a.step e).queue k.place := by
  have hstep : (a.step e).queue k.place = (a.locks.step a.currentThread e).waiters k :=
    h.waiters_step e k
  rw [hstep]
  split_ifs with he
  · rw [he, Locks.waiters_release]
    exact List.prefix_rfl
  · exact Locks.prefix_waiters_step (l := a.locks) he

/-- The first waiter of a released lock runs at once or is ready. -/
theorem Resting.release_head (h : a.Resting) (hq : a.queue k.place = t :: ts) :
    (a.step k.release).currentThread = t ∨ ∃ i < 3, t ∈ (a.step k.release).queue (.ready i) := by
  have hmem : t ∈ a.queue k.place := by simp [hq]
  have hlevel : (a.lockScheduler.tcb t).priority < 3 := by
    rw [priority_lockScheduler]
    exact h.levels t (h.alive _ t hmem)
  have hready : t ∈ (a.lockScheduler.promote k.place t).queue
      (.ready (a.lockScheduler.tcb t).priority) := mem_enqueueThread.mpr (.inr ⟨rfl, rfl⟩)
  cases k with
  | mutex m =>
    rw [Lock.release, Plan.step, enterReleaseMutex_cons h.toUnlocked hq]
    have hyielding := ((h.promoted hmem).withOwner (update a.ownerThread m t)).yielding
    exact (hyielding.mem_reschedule hready).imp_right fun hr => ⟨_, hlevel, hr⟩
  | semaphore m =>
    rw [Lock.release, Plan.step, enterReleaseSemaphore_cons h.toUnlocked hq]
    exact ((h.promoted hmem).yielding.mem_reschedule hready).imp_right fun hr => ⟨_, hlevel, hr⟩

end Plan

section Results

variable {s s' : SchedState} {a : Plan} {e : ℕ → Event} {r : ℕ → SchedState} {k : Lock}
  {n t root idle cleaner : ℕ}

theorem Steady.handedTo {ts : List ℕ} (h : Steady s a) (h' : Steady s' (a.step k.release))
    (hq : a.queue k.place = t :: ts) : k.HandedTo s s' t := by
  have hw : a.locks.waiters k = t :: ts := hq
  have howner : s'.ownerThread = (a.step k.release).ownerThread :=
    congrArg Common.ownerThread h'.rep.common
  have hcount : s'.currentCount = (a.step k.release).currentCount :=
    congrArg Common.currentCount h'.rep.common
  cases k with
  | mutex m =>
    rw [Lock.HandedTo, howner, Lock.release, h.resting.ownerThread_step, Locks.step, hw]
    exact update_self ..
  | semaphore m =>
    have hcount' : s.currentCount = a.currentCount := congrArg Common.currentCount h.rep.common
    rw [Lock.HandedTo, hcount, Lock.release, h.resting.currentCount_step, Locks.step,
      if_neg (by simp [hw]), hcount']
    rfl

theorem Steady.follows (h : Steady (r 0) a) (hr : Follows r e n) {i : ℕ} (hi : i ≤ n) :
    Steady (r i) (a.after e i) := by
  induction i with
  | zero => exact h
  | succ i ih => exact (ih (by omega)).step (hr i (by omega)).1 (hr i (by omega)).2

/-- The state of a thread that runs or is in a ready queue. -/
theorem Steady.state_ready (h : Steady s a)
    (ht : a.currentThread = t ∨ ∃ i < 3, t ∈ a.queue (.ready i)) :
    (s.tcb t).state = .running ∨ (s.tcb t).state = .ready := by
  rw [h.rep.tcb_eq]
  rcases ht with rfl | ⟨i, -, hmem⟩
  · exact .inl h.resting.running
  · exact .inr (h.resting.state _ t hmem)

/-- A thread at position `j` of the wait queue of a lock is blocked there until the lock
has been released `j` more times, and the next release passes the lock on to it; who
releases, and what is done in between, does not matter. -/
theorem fifo_handover (hb : Boot s) (hm : Blocks root idle cleaner) :
    ∃ s₀, initializeMultitasking s root idle cleaner = .ok s₀ ∧
      ∀ (r : ℕ → SchedState) (e : ℕ → Event) (n : ℕ), ReflTransGen Step s₀ (r 0) → Follows r e n →
        ∀ (k : Lock) (q : List ℕ) (j t : ℕ), Linked 0 (r 0).next ((r 0).head k.place) q →
          q[j]? = some t →
          (Nat.count (fun i => e i = k.release) n ≤ j →
            ((r n).tcb t).state = .blocked ∧
            ∃ q', Linked 0 (r n).next ((r n).head k.place) q' ∧
              q'[j - Nat.count (fun i => e i = k.release) n]? = some t) ∧
          ∀ i < n, e i = k.release → Nat.count (fun i => e i = k.release) i = j →
            k.HandedTo (r i) (r (i + 1)) t ∧
              (((r (i + 1)).tcb t).state = .running ∨ ((r (i + 1)).tcb t).state = .ready) := by
  obtain ⟨s₀, hs₀, h₀⟩ := initializeMultitasking_steady hb hm
  refine ⟨s₀, hs₀, fun r e n hrun hr k q j t hq hj => ?_⟩
  obtain ⟨a, h⟩ := h₀.run hrun
  obtain rfl : q = a.queue k.place := hq.unique (h.rep.queues.linked k.place)
  have hstep : ∀ i < n, (if e i = k.release then ((a.after e i).queue k.place).tail
      else (a.after e i).queue k.place) <+: (a.after e (i + 1)).queue k.place :=
    fun i hi => (h.follows hr hi.le).resting.queue_lock_step (e i) k
  refine ⟨fun hle => ?_, fun i hi he hcount => ?_⟩
  · have hpos := position hstep hj hle
    have hlast := h.follows hr le_rfl
    have hmem : t ∈ (a.after e n).queue k.place := List.mem_of_getElem? hpos
    refine ⟨?_, _, hlast.rep.queues.linked k.place, hpos⟩
    rw [hlast.rep.tcb_eq, hlast.resting.state _ t hmem]
    cases k <;> rfl
  · obtain ⟨ts, hhead⟩ := head_at (fun i' hi' => hstep i' (by omega)) hj hcount
    have hnext := h.follows hr (Nat.succ_le_of_lt hi)
    have hafter : a.after e (i + 1) = (a.after e i).step k.release := he ▸ rfl
    rw [hafter] at hnext
    exact ⟨(h.follows hr hi.le).handedTo hnext hhead,
      hnext.state_ready ((h.follows hr hi.le).resting.release_head hhead)⟩

/-- The root thread waits for a mutex it owns. -/
def lockedOut : List Event := [.createMutex 64, .acquireMutex 64, .acquireMutex 64]

/-- The cleaner releases the mutex, and the root thread owns it again. -/
theorem fifo_handover_sample :
    ∃ s₀ s₁, initializeMultitasking zeroState 16 32 48 = .ok s₀ ∧ ReflTransGen Step s₀ s₁ ∧
      (runFrom s₁ (fun _ => .releaseMutex 64) 1).ownerThread 64 = 16 := by
  obtain ⟨s₀, hs₀, h⟩ := fifo_handover zeroState_boot sampleBlocks
  obtain ⟨s, hs, hsteady⟩ := initializeMultitasking_steady zeroState_boot sampleBlocks
  cases hs.symm.trans hs₀
  obtain ⟨s₁, hrun, h₁⟩ := hsteady.follow lockedOut (by decide)
  have hallowed : ∀ i < 1, (Plan.after (lockedOut.foldl Plan.step (startPlan zeroState 16 32 48))
      (fun _ => .releaseMutex 64) i).Allowed (.releaseMutex 64) := by decide
  obtain ⟨-, hgiven⟩ := h _ _ 1 hrun (h₁.follows_runFrom hallowed) (.mutex 64) [16] 0 16
    (h₁.rep.queues.linked (.mutex 64)) rfl
  exact ⟨s₀, s₁, hs₀, hrun, (hgiven 0 (by omega) rfl rfl).1⟩

/-- In an endless run of atomic operations that keeps being ticked, a thread that waits for
a lock runs again once the lock has been released for it and for each thread before it. -/
theorem no_lockout (hb : Boot s) (hc : s.counter < 100) (hm : Blocks root idle cleaner) :
    ∃ s₀, initializeMultitasking s root idle cleaner = .ok s₀ ∧
      ∀ (r : ℕ → SchedState) (e : ℕ → Event), ReflTransGen Step s₀ (r 0) → (∀ n, Follows r e n) →
        (∀ n, ∃ m, n ≤ m ∧ e m = .tick) →
        ∀ (k : Lock) (q : List ℕ) (j t n : ℕ), Linked 0 (r 0).next ((r 0).head k.place) q →
          q[j]? = some t → j < Nat.count (fun i => e i = k.release) n →
            ∃ m, (r m).currentThread = t := by
  obtain ⟨s₀, hs₀, h₀⟩ := start_regular hb hc hm
  refine ⟨s₀, hs₀, fun r e hrun hr hticks k q j t n hq hj hn => ?_⟩
  obtain ⟨a, h⟩ := h₀.run hrun
  have hreg := fun i => h.follows (hr i) le_rfl
  obtain rfl : q = a.queue k.place := hq.unique (h.rep.queues.linked k.place)
  obtain ⟨i, -, hi, hcount⟩ := exists_pop hn
  obtain ⟨ts, hhead⟩ := head_at (q := fun i => (a.after e i).queue k.place)
    (fun i' _ => (hreg i').resting.queue_lock_step (e i') k) hj hcount
  have hafter : a.after e (i + 1) = (a.after e i).step k.release := hi ▸ rfl
  have hnext := (hreg i).resting.release_head hhead
  rw [← hafter] at hnext
  suffices hplan : ∃ m, (a.after e m).currentThread = t by
    obtain ⟨m, hcur⟩ := hplan
    exact ⟨m, (hreg m).rep.current_eq.trans hcur⟩
  rcases hnext with hcur | ⟨level, hlevel, hmem⟩
  · exact ⟨i + 1, hcur⟩
  · obtain ⟨m, -, hcur⟩ := h.eventually_ready hr hticks hlevel hmem
    exact ⟨m, hcur⟩

/-- One release and then ticks for ever. -/
def releaseOnce (i : ℕ) : Event := if i = 0 then .releaseMutex 64 else .tick

theorem no_lockout_sample :
    ∃ s₀ s₁, initializeMultitasking zeroState 16 32 48 = .ok s₀ ∧ ReflTransGen Step s₀ s₁ ∧
      ∃ m, (runFrom s₁ releaseOnce m).currentThread = 16 := by
  obtain ⟨s₀, hs₀, h⟩ := no_lockout zeroState_boot (by decide) sampleBlocks
  obtain ⟨s, hs, hsteady⟩ := initializeMultitasking_steady zeroState_boot sampleBlocks
  cases hs.symm.trans hs₀
  obtain ⟨s₁, hrun, h₁⟩ := hsteady.follow lockedOut (by decide)
  have hallowed : ∀ i, (Plan.after (lockedOut.foldl Plan.step (startPlan zeroState 16 32 48))
      releaseOnce i).Allowed (releaseOnce i) := by
    intro i
    cases i with
    | zero => decide
    | succ i => exact ⟨fun hne => absurd rfl hne, trivial⟩
  have hticks : ∀ n, ∃ m, n ≤ m ∧ releaseOnce m = .tick := fun n => ⟨n + 1, by omega, rfl⟩
  obtain ⟨m, hm⟩ := h _ _ hrun (fun n => h₁.follows_runFrom fun i _ => hallowed i) hticks (.mutex 64)
    [16] 0 16 1 (h₁.rep.queues.linked (.mutex 64)) rfl (by decide)
  exact ⟨s₀, s₁, hs₀, hrun, m, hm⟩

end Results

end KallarOS.Sched
