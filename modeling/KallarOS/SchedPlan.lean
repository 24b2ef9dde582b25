import KallarOS.SchedModel

namespace KallarOS.Sched
open Function

/-- Where a thread that is not running can be. -/
inductive Place where
  | ready (level : ℕ)
  | sleeping
  | terminated
  | detached
  | mutex (address : ℕ)
  | semaphore (address : ℕ)
deriving DecidableEq

@[simp] def Place.state : Place → ThreadState
  | ready _ => .ready
  | sleeping => .sleeping
  | terminated => .terminated
  | detached => .terminated
  | mutex _ => .blocked
  | semaphore _ => .blocked

/-- The scheduler with lists for queues. -/
structure Plan extends Common where
  queue : Place → List ℕ

namespace Plan

variable (a : Plan)

def modify (t : ℕ) (f : Thread → Thread) : Plan :=
  { a with tcb := update a.tcb t (f (a.tcb t)) }

def push (p : Place) (t : ℕ) : Plan := { a with queue := update a.queue p (a.queue p ++ [t]) }

def remove (p : Place) (t : ℕ) : Plan := { a with queue := update a.queue p ((a.queue p).erase t) }

def enqueueThread (t p : ℕ) : Plan :=
  (a.modify t fun th => { th with priority := p }).push (.ready p) t

/-- The best level with a ready thread. -/
def topLevel : Option ℕ := [0, 1, 2].find? fun i => a.queue (.ready i) ≠ []

def dequeueThread : ℕ × Plan :=
  match a.topLevel with
  | none => (0, a)
  | some i =>
    let t := (a.queue (.ready i)).headD 0
    (t, a.remove (.ready i) t)

/-- Thread `t` of a queue goes to the top level. -/
def lift (p : Place) (t : ℕ) (f : Thread → Thread) : Plan :=
  ((a.modify t f).remove p t).enqueueThread t 0

def drainQueue (i : ℕ) : List ℕ → Plan → Plan
  | [], a => a
  | t :: ts, a =>
    drainQueue i ts (a.lift (.ready i) t fun th => { th with remainingTime := firstLimit })

def resetQueue (i : ℕ) : Plan := drainQueue i (a.queue (.ready i)) a

def resetQueues : Plan := { (a.resetQueue 1).resetQueue 2 with counter := 0 }

def requeue : Plan :=
  if (a.tcb a.currentThread).state = .running then
    let b := a.modify a.currentThread fun t => { t with state := .ready }
    if a.currentThread ≠ a.idleThread then
      b.enqueueThread a.currentThread (a.tcb a.currentThread).priority
    else b
  else a

def switchToTask (prev next : ℕ) : Plan :=
  let b := a.modify prev fun t => { t with frameEflags := a.eflags }
  { b with eflags := (b.tcb next).frameEflags }

def dispatch (prev next : ℕ) : Plan :=
  let b := a.modify next fun t => { t with state := .running }
  if prev = next then b else switchToTask { b with currentThread := next } prev next

/-- Who runs after a `dequeue_thread` that returned `t`. -/
def successor (t : ℕ) : ℕ := if t = 0 then a.idleThread else t

def reschedule : Plan :=
  let b := a.requeue.dequeueThread
  b.2.dispatch b.2.currentThread (b.2.successor b.1)

def yield : Plan :=
  if 0 < a.postponeSwitchesCounter then { a with postponedYieldFlag := 1 } else a.reschedule

/-- What `yield` relies on: a thread that is to be queued again is in no queue. -/
def Yieldable : Prop :=
  (a.tcb a.currentThread).state = .running → a.currentThread ≠ a.idleThread →
    (∀ p, a.currentThread ∉ a.queue p) ∧ (a.tcb a.currentThread).priority < 3

/-- The current thread is in no queue and has a level to return to. -/
structure Runs : Prop where
  free : ∀ p, a.currentThread ∉ a.queue p
  level : (a.tcb a.currentThread).priority < 3

def lockScheduler : Plan :=
  { a with
    eflags := cli a.eflags
    tcb := if a.irqDisableCounter = 0 then
        update a.tcb a.currentThread
          { a.tcb a.currentThread with savedInterruptState := a.eflags }
      else a.tcb
    irqDisableCounter := inc8 a.irqDisableCounter }

def unlockScheduler : Plan :=
  { a with
    irqDisableCounter :=
      if a.irqDisableCounter = 0 then a.irqDisableCounter else dec8 a.irqDisableCounter
    eflags := if a.irqDisableCounter ≠ 0 ∧ dec8 a.irqDisableCounter = 0 then
        (a.tcb a.currentThread).savedInterruptState
      else a.eflags }

def lockAtomic : Plan :=
  { a.lockScheduler with postponeSwitchesCounter := inc8 a.postponeSwitchesCounter }

def leaveAtomic : Plan :=
  let b := { a with postponeSwitchesCounter := dec8 a.postponeSwitchesCounter }
  if b.postponeSwitchesCounter = 0 ∧ b.postponedYieldFlag = 1 then
    { b with postponedYieldFlag := 0 }.yield
  else b

/-- The sleepers `ts` that are due go to the top level. -/
def wakeSleepers : List ℕ → Plan → Plan
  | [], a => a
  | t :: ts, a =>
    if (a.tcb t).wakeTime ≤ a.systemTicks then
      wakeSleepers ts (a.lift .sleeping t fun th => { th with state := .ready })
    else wakeSleepers ts a

/-- The current thread goes to a queue and gives the CPU away. -/
def park (p : Place) (f : Thread → Thread) : Plan :=
  ((a.modify a.currentThread f).push p a.currentThread).yield

def countTick : Plan := { a with counter := inc8 a.counter }

def chargeCurrent : Bool × Plan :=
  let b := a.modify a.currentThread Thread.charge
  if (b.tcb a.currentThread).remainingTime ≤ 0 then
    (true, b.modify a.currentThread Thread.demote)
  else (false, b)

def boostCurrent : Plan :=
  if a.currentThread ≠ a.idleThread then a.modify a.currentThread Thread.boost else a

def idleTick : Bool × Plan :=
  let b := a.countTick
  if 100 ≤ b.counter then (true, b.resetQueues) else (false, b)

def busyTick : Bool × Plan :=
  let b := a.chargeCurrent.2.countTick
  if 100 ≤ b.counter then (true, b.resetQueues.boostCurrent) else (a.chargeCurrent.1, b)

def tickBody : Bool × Plan :=
  let b := wakeSleepers (a.queue .sleeping) a
  if b.currentThread = b.idleThread then b.idleTick else b.busyTick

def enterTick : Bool × Plan :=
  if a.tickBody.1 then (true, a.tickBody.2.lockScheduler.yield) else (false, a.tickBody.2)

def schedulerOnTick : Plan :=
  if a.enterTick.1 then a.enterTick.2.unlockScheduler else a.enterTick.2

def apicTimerHandler : Plan :=
  { a with systemTicks := (a.systemTicks + 1) % 2 ^ 64 }.schedulerOnTick

def enterSleep (requestedTime : ℕ) : Plan :=
  a.lockScheduler.park .sleeping fun t =>
    { t with wakeTime := (a.systemTicks + requestedTime) % 2 ^ 64, state := .sleeping }

def enterExit : Plan := a.lockScheduler.park .terminated fun t => { t with state := .terminated }

def takeMutex (m : ℕ) : Plan :=
  if a.ownerThread m = 0 then { a with ownerThread := update a.ownerThread m a.currentThread }
  else a.park (.mutex m) fun t => { t with state := .blocked }

def enterAcquireMutex (m : ℕ) : Plan := (a.lockAtomic.takeMutex m).leaveAtomic

/-- The first waiter of a wait queue becomes ready. -/
def promote (p : Place) (t : ℕ) : Plan :=
  ((a.modify t fun th => { th with state := .ready }).remove p t).enqueueThread t (a.tcb t).priority

def giveMutex (m : ℕ) : Plan :=
  match a.queue (.mutex m) with
  | [] => { a with ownerThread := update a.ownerThread m 0 }
  | t :: _ =>
    let b := a.promote (.mutex m) t
    { b with ownerThread := update a.ownerThread m t }.yield

def enterReleaseMutex (m : ℕ) : Plan := (a.lockAtomic.giveMutex m).leaveAtomic

def takeToken (m : ℕ) : Plan :=
  if a.currentCount m < a.maxCount m then
    { a with currentCount := update a.currentCount m ((a.currentCount m + 1) % 2 ^ 16) }
  else a.park (.semaphore m) fun t => { t with state := .blocked }

def enterAcquireSemaphore (m : ℕ) : Plan := (a.lockAtomic.takeToken m).leaveAtomic

def giveToken (m : ℕ) : Plan :=
  match a.queue (.semaphore m) with
  | [] =>
    if 0 < a.currentCount m then
      { a with currentCount := update a.currentCount m (a.currentCount m - 1) }
    else a
  | t :: _ => (a.promote (.semaphore m) t).yield

def enterReleaseSemaphore (m : ℕ) : Plan := (a.lockAtomic.giveToken m).leaveAtomic

def createKernelThread (t : ℕ) : Plan :=
  let id := (a.id + 1) % 2 ^ 32
  enqueueThread { a with
    alive := insert t a.alive
    tcb := update a.tcb t (newThread id (a.tcb t))
    id := id } t 0

def createMutex (m : ℕ) : Plan :=
  { a with mutexes := insert m a.mutexes, ownerThread := update a.ownerThread m 0 }

def createSemaphore (m maxCount : ℕ) : Plan :=
  { a with
    semaphores := insert m a.semaphores
    maxCount := update a.maxCount m maxCount
    currentCount := update a.currentCount m 0 }

def detachTerminated : Plan :=
  let b := a.lockScheduler
  { b with queue := update (update b.queue .detached (b.queue .terminated)) .terminated [] }.unlockScheduler

def reapThread : Plan :=
  let t := (a.queue .detached).headD 0
  { a.remove .detached t with alive := a.alive.erase t }

section Fields

variable {a : Plan} {x t : ℕ} {p : Place} {f : Thread → Thread}

@[simp] theorem tcb_modify_self : (a.modify t f).tcb t = f (a.tcb t) := update_self ..

theorem tcb_modify_of_ne (h : x ≠ t) : (a.modify t f).tcb x = a.tcb x := update_of_ne h _ _

@[simp] theorem tcb_push : (a.push p t).tcb = a.tcb := rfl

@[simp] theorem tcb_remove : (a.remove p t).tcb = a.tcb := rfl

@[simp] theorem queue_modify : (a.modify t f).queue = a.queue := rfl

theorem queue_remove_self : (a.remove p t).queue p = (a.queue p).erase t := update_self ..

@[simp] theorem tcb_enqueueThread_self {i : ℕ} :
    (a.enqueueThread t i).tcb t = { a.tcb t with priority := i } := by
  rw [enqueueThread, tcb_push, tcb_modify_self]

theorem tcb_enqueueThread_of_ne {i : ℕ} (h : x ≠ t) : (a.enqueueThread t i).tcb x = a.tcb x := by
  rw [enqueueThread, tcb_push, tcb_modify_of_ne h]

end Fields

section Membership

variable {a : Plan} {x t : ℕ} {p p' : Place}

theorem mem_push : x ∈ (a.push p t).queue p' ↔ x ∈ a.queue p' ∨ (x = t ∧ p' = p) := by
  simp only [push, update_apply]
  split_ifs with h
  · simp [h]
  · simp [h]

theorem mem_of_mem_remove (h : x ∈ (a.remove p t).queue p') : x ∈ a.queue p' := by
  simp only [remove, update_apply] at h
  split_ifs at h with hp
  · exact hp ▸ List.mem_of_mem_erase h
  · exact h

theorem mem_enqueueThread {i : ℕ} :
    x ∈ (a.enqueueThread t i).queue p' ↔ x ∈ a.queue p' ∨ (x = t ∧ p' = .ready i) := mem_push

theorem mem_of_mem_promote (h : x ∈ (a.promote p t).queue p') :
    x ∈ a.queue p' ∨ (x = t ∧ p' = .ready (a.tcb t).priority) := by
  rcases mem_enqueueThread.mp h with h | h
  · exact .inl (mem_of_mem_remove (a := a) h)
  · exact .inr h

end Membership

section Yielding

variable {a : Plan} {t m : ℕ} {p : Place}

theorem yieldable_of_state (hs : (a.tcb a.currentThread).state ≠ .running) : a.Yieldable :=
  fun hrun => absurd hrun hs

theorem Runs.yieldable (h : a.Runs) : a.Yieldable := fun _ _ => ⟨h.free, h.level⟩

theorem Runs.lockScheduler (h : a.Runs) : a.lockScheduler.Runs := by
  refine ⟨h.free, ?_⟩
  change ((if _ then _ else _ : ℕ → Thread) a.currentThread).priority < 3
  split_ifs
  · simpa using h.level
  · exact h.level

theorem Runs.lockAtomic (h : a.Runs) : a.lockAtomic.Runs := ⟨h.lockScheduler.free, h.lockScheduler.level⟩

theorem Runs.promote (h : a.Runs) (ht : t ∈ a.queue p) : (a.promote p t).Runs := by
  have hne : a.currentThread ≠ t := fun he => h.free p (he ▸ ht)
  refine ⟨fun p' hm => ?_, ?_⟩
  · rcases mem_of_mem_promote hm with hm | ⟨he, -⟩
    · exact h.free p' hm
    · exact hne he
  · simpa [Plan.promote, enqueueThread, modify, push, remove, hne] using h.level

/-- Inside an atomic section a yield only sets the flag. -/
theorem yield_of_postponed (h : 0 < a.postponeSwitchesCounter) :
    a.yield = { a with postponedYieldFlag := 1 } := if_pos h

theorem yield_of_zero (h : a.postponeSwitchesCounter = 0) : a.yield = a.reschedule :=
  if_neg (by omega)

end Yielding

section Frames

/-- A reschedule touches control blocks, queues, the current thread and EFLAGS. -/
theorem reschedule_eq : a.reschedule = { a with
    tcb := a.reschedule.tcb
    queue := a.reschedule.queue
    currentThread := a.reschedule.currentThread
    eflags := a.reschedule.eflags } := by
  have hrequeue : a.requeue = { a with tcb := a.requeue.tcb, queue := a.requeue.queue } := by
    unfold requeue
    simp only
    split_ifs <;> rfl
  have hdequeue : ∀ b : Plan, b.dequeueThread.2 = { b with queue := b.dequeueThread.2.queue } := by
    intro b
    unfold dequeueThread
    split <;> rfl
  have hdispatch : ∀ (b : Plan) (prev next : ℕ), b.dispatch prev next = { b with
      tcb := (b.dispatch prev next).tcb
      currentThread := (b.dispatch prev next).currentThread
      eflags := (b.dispatch prev next).eflags } := by
    intro b prev next
    unfold dispatch
    simp only
    split_ifs <;> rfl
  unfold reschedule
  simp only
  rw [hdispatch, hdequeue, hrequeue]

/-- The current thread goes to a queue and gives the CPU away, with the lock held. -/
def blockOn (p : Place) (f : Thread → Thread) : Plan :=
  ((a.lockScheduler.modify a.currentThread f).push p a.currentThread).reschedule

/-- No lock is held and no yield is pending. -/
structure Unlocked : Prop where
  irq : a.irqDisableCounter = 0
  postpone : a.postponeSwitchesCounter = 0
  flag : a.postponedYieldFlag = 0

variable {a : Plan} {m d : ℕ}

theorem enterSleep_eq (h : a.Unlocked) : a.enterSleep d = a.blockOn .sleeping fun t =>
    { t with wakeTime := (a.systemTicks + d) % 2 ^ 64, state := .sleeping } :=
  yield_of_zero h.postpone

theorem enterExit_eq (h : a.Unlocked) :
    a.enterExit = a.blockOn .terminated fun t => { t with state := .terminated } :=
  yield_of_zero h.postpone

theorem reset_unlocked {b : Plan} (hp : b.postponeSwitchesCounter = 0)
    (hf : b.postponedYieldFlag = 0) :
    ({ b with postponeSwitchesCounter := 0, postponedYieldFlag := 0 } : Plan) = b := by
  obtain ⟨⟨_, _, _, _, _, _, _, flag, postpone, _, _, _, _, _, _, _⟩, _⟩ := b
  obtain rfl : postpone = 0 := hp
  obtain rfl : flag = 0 := hf
  rfl

/-- `unlock_atomic` makes up for a yield of its section. -/
theorem leaveAtomic_pending {b : Plan} (hp : b.postponeSwitchesCounter = 0)
    (hf : b.postponedYieldFlag = 0) :
    leaveAtomic { b with postponeSwitchesCounter := 1, postponedYieldFlag := 1 } = b.reschedule := by
  have hdec : dec8 1 = 0 := rfl
  simp only [leaveAtomic, hdec, and_self, if_true]
  rw [reset_unlocked hp hf, yield_of_zero hp]

theorem leaveAtomic_quiet {b : Plan} (hp : b.postponeSwitchesCounter = 0)
    (hf : b.postponedYieldFlag = 0) : leaveAtomic { b with postponeSwitchesCounter := 1 } = b := by
  have hdec : dec8 1 = 0 := rfl
  simp only [leaveAtomic, hdec, hf, true_and, zero_ne_one, if_false]
  exact reset_unlocked hp hf

theorem lockAtomic_eq (h : a.Unlocked) :
    a.lockAtomic = { a.lockScheduler with postponeSwitchesCounter := 1 } := by
  rw [lockAtomic, h.postpone]
  rfl

theorem enterAcquireMutex_eq (h : a.Unlocked) : a.enterAcquireMutex m =
    if a.ownerThread m = 0 then
      { a.lockScheduler with ownerThread := update a.ownerThread m a.currentThread }
    else a.blockOn (.mutex m) fun t => { t with state := .blocked } := by
  rw [enterAcquireMutex, lockAtomic_eq h, takeMutex]
  change leaveAtomic (if a.ownerThread m = 0 then _ else _) = _
  by_cases h0 : a.ownerThread m = 0
  · rw [if_pos h0, if_pos h0]
    exact leaveAtomic_quiet (b := { a.lockScheduler with
      ownerThread := update a.ownerThread m a.currentThread }) h.postpone h.flag
  · rw [if_neg h0, if_neg h0]
    exact leaveAtomic_pending (b := (a.lockScheduler.modify a.currentThread fun t =>
      { t with state := .blocked }).push (.mutex m) a.currentThread) h.postpone h.flag

theorem enterAcquireSemaphore_eq (h : a.Unlocked) : a.enterAcquireSemaphore m =
    if a.currentCount m < a.maxCount m then
      { a.lockScheduler with
        currentCount := update a.currentCount m ((a.currentCount m + 1) % 2 ^ 16) }
    else a.blockOn (.semaphore m) fun t => { t with state := .blocked } := by
  rw [enterAcquireSemaphore, lockAtomic_eq h, takeToken]
  change leaveAtomic (if a.currentCount m < a.maxCount m then _ else _) = _
  by_cases h0 : a.currentCount m < a.maxCount m
  · rw [if_pos h0, if_pos h0]
    exact leaveAtomic_quiet (b := { a.lockScheduler with
      currentCount := update a.currentCount m ((a.currentCount m + 1) % 2 ^ 16) }) h.postpone h.flag
  · rw [if_neg h0, if_neg h0]
    exact leaveAtomic_pending (b := (a.lockScheduler.modify a.currentThread fun t =>
      { t with state := .blocked }).push (.semaphore m) a.currentThread) h.postpone h.flag

theorem enterReleaseMutex_nil (h : a.Unlocked) (hq : a.queue (.mutex m) = []) :
    a.enterReleaseMutex m = { a.lockScheduler with ownerThread := update a.ownerThread m 0 } := by
  have hq' : ({ a.lockScheduler with postponeSwitchesCounter := 1 } : Plan).queue (.mutex m) = [] := hq
  rw [enterReleaseMutex, lockAtomic_eq h, giveMutex, hq']
  exact leaveAtomic_quiet (b := { a.lockScheduler with ownerThread := update a.ownerThread m 0 })
    h.postpone h.flag

theorem enterReleaseMutex_cons {t : ℕ} {ts : List ℕ} (h : a.Unlocked)
    (hq : a.queue (.mutex m) = t :: ts) :
    a.enterReleaseMutex m = { a.lockScheduler.promote (.mutex m) t with
      ownerThread := update a.ownerThread m t }.reschedule := by
  have hq' : ({ a.lockScheduler with postponeSwitchesCounter := 1 } : Plan).queue (.mutex m) =
    t :: ts := hq
  rw [enterReleaseMutex, lockAtomic_eq h, giveMutex, hq']
  exact leaveAtomic_pending (b := { a.lockScheduler.promote (.mutex m) t with
    ownerThread := update a.ownerThread m t }) h.postpone h.flag

theorem enterReleaseSemaphore_nil (h : a.Unlocked) (hq : a.queue (.semaphore m) = []) :
    a.enterReleaseSemaphore m = if 0 < a.currentCount m then
        { a.lockScheduler with currentCount := update a.currentCount m (a.currentCount m - 1) }
      else a.lockScheduler := by
  have hq' : ({ a.lockScheduler with postponeSwitchesCounter := 1 } : Plan).queue (.semaphore m) =
    [] := hq
  rw [enterReleaseSemaphore, lockAtomic_eq h, giveToken, hq']
  by_cases h0 : 0 < a.currentCount m
  · rw [if_pos h0]
    simp only [if_pos (show 0 < a.lockScheduler.currentCount m from h0)]
    exact leaveAtomic_quiet (b := { a.lockScheduler with
      currentCount := update a.currentCount m (a.currentCount m - 1) }) h.postpone h.flag
  · rw [if_neg h0]
    simp only [if_neg (show ¬ 0 < a.lockScheduler.currentCount m from h0)]
    exact leaveAtomic_quiet (b := a.lockScheduler) h.postpone h.flag

theorem enterReleaseSemaphore_cons {t : ℕ} {ts : List ℕ} (h : a.Unlocked)
    (hq : a.queue (.semaphore m) = t :: ts) :
    a.enterReleaseSemaphore m = (a.lockScheduler.promote (.semaphore m) t).reschedule := by
  have hq' : ({ a.lockScheduler with postponeSwitchesCounter := 1 } : Plan).queue (.semaphore m) =
    t :: ts := hq
  rw [enterReleaseSemaphore, lockAtomic_eq h, giveToken, hq']
  exact leaveAtomic_pending (b := a.lockScheduler.promote (.semaphore m) t) h.postpone h.flag

end Frames

end Plan

end KallarOS.Sched
