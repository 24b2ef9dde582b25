import KallarOS.SchedRuns

namespace KallarOS.Sched
open Function Relation

/-- What a thread can be blocked on. -/
inductive Lock where
  | mutex (address : ℕ)
  | semaphore (address : ℕ)
deriving DecidableEq

def Lock.place : Lock → Place
  | mutex m => .mutex m
  | semaphore m => .semaphore m

/-- Mutexes and semaphores by themselves: who waits, who owns, how many tokens are out. -/
structure Locks where
  waiters : Lock → List ℕ
  owner : ℕ → ℕ
  count : ℕ → ℕ
  max : ℕ → ℕ

namespace Locks

variable (l : Locks)

def wait (k : Lock) (t : ℕ) : Locks :=
  { l with waiters := update l.waiters k (l.waiters k ++ [t]) }

def wake (k : Lock) : Locks := { l with waiters := update l.waiters k (l.waiters k).tail }

/-- What an event of thread `t` does to the locks. -/
def step (t : ℕ) : Event → Locks
  | .acquireMutex m =>
    if l.owner m = 0 then { l with owner := update l.owner m t } else l.wait (.mutex m) t
  | .releaseMutex m =>
    { l.wake (.mutex m) with owner := update l.owner m ((l.waiters (.mutex m)).headD 0) }
  | .acquireSemaphore m =>
    if l.count m < l.max m then { l with count := update l.count m ((l.count m + 1) % 2 ^ 16) }
    else l.wait (.semaphore m) t
  | .releaseSemaphore m =>
    if l.waiters (.semaphore m) = [] then { l with count := update l.count m (l.count m - 1) }
    else l.wake (.semaphore m)
  | .createMutex m => { l with owner := update l.owner m 0 }
  | .createSemaphore m maxCount =>
    { l with max := update l.max m maxCount, count := update l.count m 0 }
  | _ => l

variable {l} {k k' : Lock} {t : ℕ}

theorem waiters_wait_self : (l.wait k t).waiters k = l.waiters k ++ [t] := update_self ..

theorem waiters_wait_of_ne (h : k' ≠ k) : (l.wait k t).waiters k' = l.waiters k' :=
  update_of_ne h _ _

theorem waiters_wake_self : (l.wake k).waiters k = (l.waiters k).tail := update_self ..

theorem waiters_wake_of_ne (h : k' ≠ k) : (l.wake k).waiters k' = l.waiters k' :=
  update_of_ne h _ _

end Locks

namespace Plan

variable {a b : Plan} {t m : ℕ} {p : Place} {k : Lock} {f : Thread → Thread} {e : Event}

/-- The locks of a scheduler state. -/
def locks (a : Plan) : Locks :=
  ⟨fun k => a.queue k.place, a.ownerThread, a.currentCount, a.maxCount⟩

section Frames

theorem place_ne_ready (k : Lock) (i : ℕ) : k.place ≠ .ready i := by
  cases k <;> simp [Lock.place]

theorem place_injective : Injective Lock.place := by
  intro k k' h
  cases k <;> cases k' <;> simp_all [Lock.place]

/-- The wait queues outside the ready queues stay as they are. -/
theorem queue_enqueueThread_of_ne {i : ℕ} (hp : p ≠ .ready i) :
    (a.enqueueThread t i).queue p = a.queue p := update_of_ne hp _ _

theorem queue_remove_of_ne {p' : Place} (hp : p ≠ p') : (a.remove p' t).queue p = a.queue p :=
  update_of_ne hp _ _

theorem queue_requeue (hp : ∀ i, p ≠ .ready i) : a.requeue.queue p = a.queue p := by
  rw [requeue]
  split_ifs
  · exact queue_enqueueThread_of_ne (hp _)
  · rfl
  · rfl

theorem queue_dequeueThread (hp : ∀ i, p ≠ .ready i) : a.dequeueThread.2.queue p = a.queue p := by
  rw [dequeueThread]
  split
  · rfl
  · exact queue_remove_of_ne (hp _)

theorem queue_reschedule (hp : ∀ i, p ≠ .ready i) : a.reschedule.queue p = a.queue p := by
  rw [reschedule, queue_dispatch, queue_dequeueThread hp, queue_requeue hp]

theorem locks_congr (hq : ∀ k : Lock, b.queue k.place = a.queue k.place)
    (ho : b.ownerThread = a.ownerThread) (hc : b.currentCount = a.currentCount)
    (hm : b.maxCount = a.maxCount) : b.locks = a.locks := by
  have hw : (fun k : Lock => b.queue k.place) = fun k => a.queue k.place := funext hq
  rw [locks, locks, hw, ho, hc, hm]

theorem SameObjects.locks (hs : SameObjects a b)
    (hq : ∀ k : Lock, b.queue k.place = a.queue k.place) : b.locks = a.locks :=
  locks_congr hq hs.ownerThread hs.currentCount hs.maxCount

theorem locks_reschedule (a : Plan) : a.reschedule.locks = a.locks :=
  (sameObjects_reschedule a).locks fun k => queue_reschedule (place_ne_ready k)

theorem locks_unlockScheduler (a : Plan) : a.unlockScheduler.locks = a.locks := rfl

theorem locks_push (a : Plan) (k : Lock) (t : ℕ) : (a.push k.place t).locks = a.locks.wait k t := by
  have hw : (fun k' : Lock => (a.push k.place t).queue k'.place) =
      update (fun k' : Lock => a.queue k'.place) k (a.queue k.place ++ [t]) := by
    funext k'
    by_cases hk : k' = k
    · simp [push, hk]
    · simp [push, hk, place_injective.ne hk]
  rw [locks, hw]
  rfl

/-- A thread blocked on `k` waits there. -/
theorem locks_blockOn (a : Plan) (k : Lock) (f : Thread → Thread) :
    (a.blockOn k.place f).locks = a.locks.wait k a.currentThread := by
  rw [blockOn, locks_reschedule, locks_push]
  rfl

/-- A thread that goes to a queue no lock has. -/
theorem locks_blockOn_of_ne (hp : ∀ k : Lock, k.place ≠ p) : (a.blockOn p f).locks = a.locks := by
  rw [blockOn, locks_reschedule]
  have hw : (fun k : Lock => (push (a.lockScheduler.modify a.currentThread f) p
      a.currentThread).queue k.place) = fun k => a.queue k.place :=
    funext fun k => update_of_ne (hp k) _ _
  rw [locks, hw]
  rfl

/-- The first waiter leaves. -/
theorem locks_promote {ts : List ℕ} (hq : a.queue k.place = t :: ts) :
    (a.promote k.place t).locks = a.locks.wake k := by
  have hw : (fun k' : Lock => (a.promote k.place t).queue k'.place) =
      update (fun k' : Lock => a.queue k'.place) k ts := by
    funext k'
    rw [promote, queue_enqueueThread_of_ne (place_ne_ready k' _)]
    by_cases hk : k' = k
    · simp [remove, hk, hq]
    · simp [remove, hk, place_injective.ne hk]
  have htail : (a.locks.waiters k).tail = ts := by simp [locks, hq]
  rw [Locks.wake, htail, locks, hw]
  rfl

end Frames

section Ticks

theorem queue_lift {p' : Place} (hp : p ≠ p') (h0 : p ≠ .ready 0) :
    (a.lift p' t f).queue p = a.queue p := by
  rw [lift, queue_enqueueThread_of_ne h0, queue_remove_of_ne hp]
  rfl

theorem queue_wakeSleepers {ts : List ℕ} (hp : p ≠ .sleeping) (h0 : p ≠ .ready 0) :
    (wakeSleepers ts a).queue p = a.queue p := by
  induction ts generalizing a with
  | nil => rfl
  | cons t ts ih =>
    rw [wakeSleepers]
    split_ifs
    · rw [ih, queue_lift hp h0]
    · exact ih

theorem queue_drainQueue_of_ne {ts : List ℕ} {i : ℕ} (hp : ∀ i, p ≠ .ready i) :
    (drainQueue i ts a).queue p = a.queue p := by
  induction ts generalizing a with
  | nil => rfl
  | cons t ts ih => rw [drainQueue, ih, queue_lift (hp i) (hp 0)]

theorem queue_resetQueues (hp : ∀ i, p ≠ .ready i) : a.resetQueues.queue p = a.queue p := by
  change (drainQueue 2 _ (drainQueue 1 _ a)).queue p = _
  rw [queue_drainQueue_of_ne hp, queue_drainQueue_of_ne hp]

theorem queue_chargeCurrent (a : Plan) : a.chargeCurrent.2.queue = a.queue := by
  rw [chargeCurrent]
  split_ifs <;> rfl

theorem queue_boostCurrent (a : Plan) : a.boostCurrent.queue = a.queue := by
  rw [boostCurrent]
  split_ifs <;> rfl

theorem queue_countTick (a : Plan) : a.countTick.queue = a.queue := rfl

theorem queue_tickBody (hp : ∀ i, p ≠ .ready i) (hs : p ≠ .sleeping) :
    a.tickBody.2.queue p = a.queue p := by
  rw [tickBody, idleTick, busyTick]
  split_ifs
  · rw [queue_resetQueues hp, queue_countTick, queue_wakeSleepers hs (hp 0)]
  · rw [queue_countTick, queue_wakeSleepers hs (hp 0)]
  · rw [queue_boostCurrent, queue_resetQueues hp, queue_countTick, queue_chargeCurrent,
      queue_wakeSleepers hs (hp 0)]
  · rw [queue_countTick, queue_chargeCurrent, queue_wakeSleepers hs (hp 0)]

/-- A tick moves threads out of the sleeping queue and between the ready queues only. -/
theorem queue_apicTimerHandler (h : a.Unlocked) (hp : ∀ i, p ≠ .ready i) (hs : p ≠ .sleeping) :
    a.apicTimerHandler.queue p = a.queue p := by
  have hunlocked : Unlocked { a with systemTicks := (a.systemTicks + 1) % 2 ^ 64 } :=
    ⟨h.irq, h.postpone, h.flag⟩
  have hbody := queue_tickBody (a := { a with systemTicks := (a.systemTicks + 1) % 2 ^ 64 }) hp hs
  rw [apicTimerHandler, schedulerOnTick_eq hunlocked]
  split_ifs
  · rw [queue_unlockScheduler, queue_reschedule hp]
    exact hbody
  · exact hbody

theorem locks_apicTimerHandler (h : a.Unlocked) : a.apicTimerHandler.locks = a.locks := by
  refine (sameObjects_apicTimerHandler h).locks fun k => ?_
  have hs : k.place ≠ .sleeping := by cases k <;> simp [Lock.place]
  exact queue_apicTimerHandler h (place_ne_ready k) hs

end Ticks

section Steps

/-- The scheduler runs the locks: every operation does to them what the caller's
event does, and nothing else. -/
theorem Resting.locks_step (h : a.Resting) (e : Event) :
    (a.step e).locks = a.locks.step a.currentThread e := by
  cases e with
  | createKernelThread t =>
    exact locks_congr (fun k => queue_enqueueThread_of_ne (place_ne_ready k 0)) rfl rfl rfl
  | createMutex m => rfl
  | createSemaphore m maxCount => rfl
  | tick => exact locks_apicTimerHandler h.toUnlocked
  | threadSleep d =>
    rw [Plan.step, locks_unlockScheduler, enterSleep_eq h.toUnlocked]
    exact locks_blockOn_of_ne fun k => by cases k <;> simp [Lock.place]
  | threadExit =>
    rw [Plan.step, locks_unlockScheduler, enterExit_eq h.toUnlocked]
    exact locks_blockOn_of_ne fun k => by cases k <;> simp [Lock.place]
  | acquireMutex m =>
    rw [Plan.step, locks_unlockScheduler, enterAcquireMutex_eq h.toUnlocked, Locks.step]
    by_cases h0 : a.ownerThread m = 0
    · rw [if_pos h0, if_pos (show a.locks.owner m = 0 from h0)]
      rfl
    · rw [if_neg h0, if_neg (show ¬ a.locks.owner m = 0 from h0)]
      exact locks_blockOn a (.mutex m) _
  | releaseMutex m =>
    rw [Plan.step, locks_unlockScheduler, Locks.step]
    cases hq : a.queue (.mutex m) with
    | nil =>
      have hw : a.locks.waiters (.mutex m) = [] := hq
      rw [enterReleaseMutex_nil h.toUnlocked hq, Locks.wake, hw, List.tail_nil, ← hw,
        update_eq_self, hw]
      rfl
    | cons t ts =>
      have hw : a.locks.waiters (.mutex m) = t :: ts := hq
      have hpromote : a.locks.wake (.mutex m) = (a.lockScheduler.promote (.mutex m) t).locks :=
        (locks_promote (a := a.lockScheduler) (k := .mutex m) hq).symm
      rw [enterReleaseMutex_cons h.toUnlocked hq, locks_reschedule, hw, List.headD_cons, hpromote]
      rfl
  | acquireSemaphore m =>
    rw [Plan.step, locks_unlockScheduler, enterAcquireSemaphore_eq h.toUnlocked, Locks.step]
    by_cases h0 : a.currentCount m < a.maxCount m
    · rw [if_pos h0, if_pos (show a.locks.count m < a.locks.max m from h0)]
      rfl
    · rw [if_neg h0, if_neg (show ¬ a.locks.count m < a.locks.max m from h0)]
      exact locks_blockOn a (.semaphore m) _
  | releaseSemaphore m =>
    rw [Plan.step, locks_unlockScheduler, Locks.step]
    cases hq : a.queue (.semaphore m) with
    | nil =>
      rw [enterReleaseSemaphore_nil h.toUnlocked hq,
        if_pos (show a.locks.waiters (.semaphore m) = [] from hq)]
      by_cases h0 : 0 < a.currentCount m
      · rw [if_pos h0]
        rfl
      · have hsame : update a.locks.count m (a.locks.count m - 1) = a.locks.count := by
          have hzero : a.locks.count m - 1 = a.locks.count m := by
            change a.currentCount m - 1 = a.currentCount m
            omega
          rw [hzero, update_eq_self]
        rw [if_neg h0, hsame]
        rfl
    | cons t ts =>
      have hw : a.locks.waiters (.semaphore m) ≠ [] := by simp [locks, Lock.place, hq]
      rw [enterReleaseSemaphore_cons h.toUnlocked hq, locks_reschedule, if_neg hw]
      exact locks_promote (a := a.lockScheduler) (k := .semaphore m) hq
  | detachTerminated =>
    refine locks_congr (fun k => ?_) rfl rfl rfl
    exact (update_of_ne (by cases k <;> simp [Lock.place]) _ _).trans
      (update_of_ne (by cases k <;> simp [Lock.place]) _ _)
  | reapThread =>
    refine locks_congr (fun k => ?_) rfl rfl rfl
    exact update_of_ne (by cases k <;> simp [Lock.place]) _ _

theorem Resting.waiters_step (h : a.Resting) (e : Event) (k : Lock) :
    (a.step e).locks.waiters k = (a.locks.step a.currentThread e).waiters k := by
  rw [h.locks_step e]

theorem Resting.ownerThread_step (h : a.Resting) (e : Event) :
    (a.step e).ownerThread = (a.locks.step a.currentThread e).owner := by
  rw [← h.locks_step e]
  rfl

theorem Resting.currentCount_step (h : a.Resting) (e : Event) :
    (a.step e).currentCount = (a.locks.step a.currentThread e).count := by
  rw [← h.locks_step e]
  rfl

theorem Resting.maxCount_step (h : a.Resting) (e : Event) :
    (a.step e).maxCount = (a.locks.step a.currentThread e).max := by
  rw [← h.locks_step e]
  rfl

end Steps

end Plan

end KallarOS.Sched
