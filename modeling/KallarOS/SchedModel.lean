import KallarOS.PmmModel

namespace KallarOS.Sched
open Function Pmm

inductive ThreadState where
  | ready
  | running
  | sleeping
  | blocked
  | terminated
deriving DecidableEq, Repr

/-- `thread_control_block_t` without its `next` field, which is kept apart;
`frameEflags` is the EFLAGS word of the switch frame at `esp`. -/
structure Thread where
  state : ThreadState
  timeUsed : ℕ
  wakeTime : ℕ
  id : ℕ
  savedInterruptState : BitVec 32
  priority : ℕ
  remainingTime : ℤ
  frameEflags : BitVec 32

/-- The globals that are not queues, the control blocks and the plain fields of
mutexes and semaphores, all by address. -/
structure Common where
  tcb : ℕ → Thread
  alive : Finset ℕ
  currentThread : ℕ
  idleThread : ℕ
  id : ℕ
  irqDisableCounter : ℕ
  counter : ℕ
  postponedYieldFlag : ℕ
  postponeSwitchesCounter : ℕ
  systemTicks : ℕ
  eflags : BitVec 32
  mutexes : Finset ℕ
  ownerThread : ℕ → ℕ
  semaphores : Finset ℕ
  maxCount : ℕ → ℕ
  currentCount : ℕ → ℕ

/-- The machine state: on top of `Common` the queue pointers and the `next` fields.
`detachedQueue` is the cleaner's local variable. -/
structure SchedState extends Common where
  next : ℕ → ℕ
  firstReady : ℕ → ℕ
  lastReady : ℕ → ℕ
  sleepingThreadQueue : ℕ
  terminatedThreadQueue : ℕ
  detachedQueue : ℕ
  mutexFirst : ℕ → ℕ
  mutexLast : ℕ → ℕ
  semFirst : ℕ → ℕ
  semLast : ℕ → ℕ

def firstLimit : ℤ := 10
def secondLimit : ℤ := 20
def thirdLimit : ℤ := 30

def inc8 (x : ℕ) : ℕ := (x + 1) % 256
def dec8 (x : ℕ) : ℕ := (x + 255) % 256

/-- The interrupt flag, bit 9 of EFLAGS. -/
def interruptFlag (eflags : BitVec 32) : Bool := eflags.getLsbD 9

def cli (eflags : BitVec 32) : BitVec 32 := eflags &&& ~~~0x200#32

namespace SchedState

variable (s : SchedState)

/-- Control blocks are read and written only while they are allocated. -/
def load (t : ℕ) : Outcome Thread :=
  if t ∈ s.alive then .ok (s.tcb t) else .error (.fault t)

def modify (t : ℕ) (f : Thread → Thread) : Outcome SchedState :=
  if t ∈ s.alive then .ok { s with tcb := update s.tcb t (f (s.tcb t)) } else .error (.fault t)

def readNext (t : ℕ) : Outcome ℕ :=
  if t ∈ s.alive then .ok (s.next t) else .error (.fault t)

def writeNext (t v : ℕ) : Outcome SchedState :=
  if t ∈ s.alive then .ok { s with next := update s.next t v } else .error (.fault t)

end SchedState

section ReadyQueues

/-- The end of a queue with a first and a last pointer; `started` sets both to
`thread`, `extended` only the last. -/
def appendTail (s : SchedState) (first last thread : ℕ) (started extended : SchedState → SchedState) :
    Outcome SchedState :=
  if first = 0 then .ok (started s)
  else do
    let s ← s.writeNext last thread
    return extended s

def appendReady (s : SchedState) (thread p : ℕ) : Outcome SchedState :=
  if 3 ≤ p then .error (.fault p)
  else appendTail s (s.firstReady p) (s.lastReady p) thread
    (fun s => { s with
      firstReady := update s.firstReady p thread
      lastReady := update s.lastReady p thread })
    fun s => { s with lastReady := update s.lastReady p thread }

def enqueueThread (s : SchedState) (thread threadPriority : ℕ) : Outcome SchedState := do
  let s ← s.writeNext thread 0
  let s ← s.modify thread fun t => { t with priority := threadPriority }
  appendReady s thread threadPriority

/-- The thread is NULL when the three queues are empty. -/
def dequeueThread (s : SchedState) : Outcome (ℕ × SchedState) :=
  match [0, 1, 2].find? fun i => s.firstReady i ≠ 0 with
  | none => .ok (0, s)
  | some i => do
    let r := s.firstReady i
    let next ← s.readNext r
    return (r, { s with firstReady := update s.firstReady i next })

/-- The inner loop of `reset_queues`: queue `i` is emptied into queue 0. -/
def drainQueue (i : ℕ) : ℕ → SchedState → Outcome SchedState
  | 0, _ => .error .diverge
  | fuel + 1, s =>
    if s.firstReady i = 0 then .ok s
    else do
      let nextInLine ← s.readNext (s.firstReady i)
      let s ← s.modify (s.firstReady i) fun t => { t with remainingTime := firstLimit }
      -- `enqueue_thread` clears the link, which was read before
      let s ← enqueueThread s (s.firstReady i) 0
      drainQueue i fuel { s with firstReady := update s.firstReady i nextInLine }

def resetQueue (s : SchedState) (i : ℕ) : Outcome SchedState := do
  let s ← drainQueue i walkFuel s
  return { s with lastReady := update s.lastReady i 0 }

def resetQueues (s : SchedState) : Outcome SchedState := do
  let s ← resetQueue s 1
  let s ← resetQueue s 2
  return { s with counter := 0 }

end ReadyQueues

section Switching

/-- `pushfd` on the old stack, `popfd` from the new one. -/
def switchToTask (s : SchedState) (prev next : ℕ) : Outcome SchedState := do
  let s ← s.modify prev fun t => { t with frameEflags := s.eflags }
  let t ← s.load next
  return { s with eflags := t.frameEflags }

/-- The first half of `yield`: a running thread goes back to its ready queue. -/
def requeue (s : SchedState) : Outcome SchedState := do
  let prev ← s.load s.currentThread
  if prev.state = .running then do
    let s ← s.modify s.currentThread fun t => { t with state := .ready }
    -- the idle thread is never in a queue
    if s.currentThread ≠ s.idleThread then enqueueThread s s.currentThread prev.priority
    else return s
  else return s

/-- The second half of `yield`. -/
def dispatch (s : SchedState) (prev next : ℕ) : Outcome SchedState :=
  if prev = next then s.modify prev fun t => { t with state := .running }
  else do
    let s ← s.modify next fun t => { t with state := .running }
    -- `current_thread` is already the next one when the stacks are exchanged
    switchToTask { s with currentThread := next } prev next

/-- The state when the code after `yield()` runs, in whichever thread that is. -/
def yield (s : SchedState) : Outcome SchedState :=
  if 0 < s.postponeSwitchesCounter then .ok { s with postponedYieldFlag := 1 }
  else do
    let s ← requeue s
    let (nextThread, s) ← dequeueThread s
    dispatch s s.currentThread (if nextThread = 0 then s.idleThread else nextThread)

def saveInterrupts (s : SchedState) (eflags : BitVec 32) : Outcome SchedState :=
  if s.irqDisableCounter = 0 then
    s.modify s.currentThread fun t => { t with savedInterruptState := eflags }
  else .ok s

def lockScheduler (s : SchedState) : Outcome SchedState := do
  -- the word saved is the one from before `cli`
  let s ← saveInterrupts { s with eflags := cli s.eflags } s.eflags
  return { s with irqDisableCounter := inc8 s.irqDisableCounter }

/-- The tail of `unlock_scheduler`, after the decrement. -/
def restoreInterrupts (s : SchedState) : Outcome SchedState :=
  if s.irqDisableCounter = 0 then do
    let t ← s.load s.currentThread
    return { s with eflags := t.savedInterruptState }
  else .ok s

def unlockScheduler (s : SchedState) : Outcome SchedState :=
  if s.irqDisableCounter = 0 then .ok s
  else restoreInterrupts { s with irqDisableCounter := dec8 s.irqDisableCounter }

def lockAtomic (s : SchedState) : Outcome SchedState := do
  let s ← lockScheduler s
  return { s with postponeSwitchesCounter := inc8 s.postponeSwitchesCounter }

/-- `unlock_atomic` up to its call of `unlock_scheduler`. -/
def leaveAtomic (s : SchedState) : Outcome SchedState :=
  let s := { s with postponeSwitchesCounter := dec8 s.postponeSwitchesCounter }
  if s.postponeSwitchesCounter = 0 ∧ s.postponedYieldFlag = 1 then
    yield { s with postponedYieldFlag := 0 }
  else .ok s

def unlockAtomic (s : SchedState) : Outcome SchedState := do
  let s ← leaveAtomic s
  unlockScheduler s

end Switching

section Ticks

/-- A due sleeper leaves the sleeping queue. -/
def unlinkSleeper (s : SchedState) (cur prev : ℕ) : Outcome SchedState :=
  if prev = 0 then do
    let next ← s.readNext s.sleepingThreadQueue
    return { s with sleepingThreadQueue := next }
  else do
    let next ← s.readNext cur
    s.writeNext prev next

/-- The first loop of `scheduler_on_tick`. -/
def wakeSleepers : ℕ → SchedState → ℕ → ℕ → Outcome SchedState
  | 0, _, _, _ => .error .diverge
  | fuel + 1, s, cur, prev =>
    if cur = 0 then .ok s
    else do
      let temp ← s.readNext cur
      let t ← s.load cur
      if t.wakeTime ≤ s.systemTicks then do
        let s ← s.modify cur fun t => { t with state := .ready }
        let s ← unlinkSleeper s cur prev
        let s ← enqueueThread s cur 0
        -- `prev` stays, because `cur` has left the list
        wakeSleepers fuel s temp prev
      else wakeSleepers fuel s temp cur

/-- `time_used += 1; remaining_time -= 1;` -/
def Thread.charge (t : Thread) : Thread :=
  { t with timeUsed := (t.timeUsed + 1) % 2 ^ 32, remainingTime := Int.bmod (t.remainingTime - 1) 256 }

def Thread.demote (t : Thread) : Thread :=
  if 1 ≤ t.priority then { t with remainingTime := thirdLimit, priority := 2 }
  else { t with remainingTime := secondLimit, priority := inc8 t.priority }

def Thread.boost (t : Thread) : Thread := { t with priority := 0, remainingTime := firstLimit }

/-- The current thread pays for the tick; the flag is `needs_yield`. -/
def chargeCurrent (s : SchedState) : Outcome (Bool × SchedState) := do
  let s ← s.modify s.currentThread Thread.charge
  let t ← s.load s.currentThread
  if t.remainingTime ≤ 0 then do
    let s ← s.modify s.currentThread Thread.demote
    return (true, s)
  else return (false, s)

def boostCurrent (s : SchedState) : Outcome SchedState :=
  if s.currentThread ≠ s.idleThread then s.modify s.currentThread Thread.boost else .ok s

def countTick (s : SchedState) : SchedState := { s with counter := inc8 s.counter }

def idleTick (s : SchedState) : Outcome (Bool × SchedState) :=
  let s := countTick s
  if 100 ≤ s.counter then do
    let s ← resetQueues s
    return (true, s)
  else .ok (false, s)

def busyTick (s : SchedState) : Outcome (Bool × SchedState) := do
  let (needsYield, s) ← chargeCurrent s
  let s := countTick s
  if 100 ≤ s.counter then do
    -- the boost wins over a demotion in the same tick
    let s ← resetQueues s
    let s ← boostCurrent s
    return (true, s)
  else return (needsYield, s)

/-- `scheduler_on_tick` up to the test of `needs_yield`. -/
def tickBody (s : SchedState) : Outcome (Bool × SchedState) := do
  let s ← wakeSleepers walkFuel s s.sleepingThreadQueue 0
  if s.currentThread = s.idleThread then idleTick s else busyTick s

/-- The tick up to `unlock_scheduler`; the flag says whether that call follows. -/
def enterTick (s : SchedState) : Outcome (Bool × SchedState) := do
  let (needsYield, s) ← tickBody s
  if needsYield then do
    let s ← lockScheduler s
    let s ← yield s
    return (true, s)
  else return (false, s)

def schedulerOnTick (s : SchedState) : Outcome SchedState := do
  let (yielded, s) ← enterTick s
  if yielded then unlockScheduler s else return s

def apicTimerHandler (s : SchedState) : Outcome SchedState :=
  schedulerOnTick { s with systemTicks := (s.systemTicks + 1) % 2 ^ 64 }

end Ticks

section Services

/-- `while (cur->next) cur = cur->next;` -/
def tailOf : ℕ → SchedState → ℕ → Outcome ℕ
  | 0, _, _ => .error .diverge
  | fuel + 1, s, cur => do
    let next ← s.readNext cur
    if next = 0 then return cur else tailOf fuel s next

/-- The tail of a queue that has only a head pointer; `started` is the state with
that pointer set to `thread`. -/
def joinQueue (s started : SchedState) (head thread : ℕ) : Outcome SchedState :=
  if head = 0 then .ok started
  else do
    let last ← tailOf walkFuel s head
    s.writeNext last thread

def joinSleepers (s : SchedState) (thread : ℕ) : Outcome SchedState :=
  joinQueue s { s with sleepingThreadQueue := thread } s.sleepingThreadQueue thread

def joinTerminated (s : SchedState) (thread : ℕ) : Outcome SchedState :=
  joinQueue s { s with terminatedThreadQueue := thread } s.terminatedThreadQueue thread

/-- `thread_sleep` up to `unlock_scheduler`. -/
def enterSleep (s : SchedState) (requestedTime : ℕ) : Outcome SchedState := do
  let s ← lockScheduler s
  let thread := s.currentThread
  let s ← s.writeNext thread 0
  let s ← s.modify thread fun t =>
    { t with wakeTime := (s.systemTicks + requestedTime) % 2 ^ 64, state := .sleeping }
  let s ← joinSleepers s thread
  yield s

def threadSleep (s : SchedState) (requestedTime : ℕ) : Outcome SchedState := do
  let s ← enterSleep s requestedTime
  unlockScheduler s

/-- `thread_exit`; what follows its `yield` is the `unlock_scheduler` of the next thread. -/
def enterExit (s : SchedState) : Outcome SchedState := do
  let s ← lockScheduler s
  let thread := s.currentThread
  let s ← s.writeNext thread 0
  let s ← s.modify thread fun t => { t with state := .terminated }
  let s ← joinTerminated s thread
  yield s

def threadExit (s : SchedState) : Outcome SchedState := do
  let s ← enterExit s
  unlockScheduler s

def joinMutex (s : SchedState) (mutex thread : ℕ) : Outcome SchedState :=
  appendTail s (s.mutexFirst mutex) (s.mutexLast mutex) thread
    (fun s => { s with
      mutexFirst := update s.mutexFirst mutex thread
      mutexLast := update s.mutexLast mutex thread })
    fun s => { s with mutexLast := update s.mutexLast mutex thread }

def blockOnMutex (s : SchedState) (mutex : ℕ) : Outcome SchedState := do
  let thread := s.currentThread
  let s ← s.writeNext thread 0
  let s ← joinMutex s mutex thread
  let s ← s.modify thread fun t => { t with state := .blocked }
  yield s

def takeMutex (s : SchedState) (mutex : ℕ) : Outcome SchedState :=
  if s.ownerThread mutex = 0 then
    .ok { s with ownerThread := update s.ownerThread mutex s.currentThread }
  else blockOnMutex s mutex

/-- `acquire_mutex` up to `unlock_scheduler`. -/
def enterAcquireMutex (s : SchedState) (mutex : ℕ) : Outcome SchedState :=
  if mutex ∉ s.mutexes then .error (.fault mutex)
  else do
    let s ← lockAtomic s
    let s ← takeMutex s mutex
    leaveAtomic s

def acquireMutex (s : SchedState) (mutex : ℕ) : Outcome SchedState := do
  let s ← enterAcquireMutex s mutex
  unlockScheduler s

def giveMutex (s : SchedState) (mutex : ℕ) : Outcome SchedState :=
  if s.mutexFirst mutex = 0 then .ok { s with ownerThread := update s.ownerThread mutex 0 }
  else do
    let nextThread := s.mutexFirst mutex
    let second ← s.readNext nextThread
    let s := { s with mutexFirst := update s.mutexFirst mutex second }
    let s ← s.modify nextThread fun t => { t with state := .ready }
    let t ← s.load nextThread
    let s ← enqueueThread s nextThread t.priority
    -- handed over directly; the `yield` is only noted, switches are postponed
    yield { s with ownerThread := update s.ownerThread mutex nextThread }

/-- `release_mutex` up to `unlock_scheduler`. -/
def enterReleaseMutex (s : SchedState) (mutex : ℕ) : Outcome SchedState :=
  if mutex ∉ s.mutexes then .error (.fault mutex)
  else do
    let s ← lockAtomic s
    let s ← giveMutex s mutex
    leaveAtomic s

def releaseMutex (s : SchedState) (mutex : ℕ) : Outcome SchedState := do
  let s ← enterReleaseMutex s mutex
  unlockScheduler s

def joinSemaphore (s : SchedState) (semaphore thread : ℕ) : Outcome SchedState :=
  appendTail s (s.semFirst semaphore) (s.semLast semaphore) thread
    (fun s => { s with
      semFirst := update s.semFirst semaphore thread
      semLast := update s.semLast semaphore thread })
    fun s => { s with semLast := update s.semLast semaphore thread }

def blockOnSemaphore (s : SchedState) (semaphore : ℕ) : Outcome SchedState := do
  let thread := s.currentThread
  let s ← s.writeNext thread 0
  let s ← joinSemaphore s semaphore thread
  let s ← s.modify thread fun t => { t with state := .blocked }
  yield s

def takeToken (s : SchedState) (semaphore : ℕ) : Outcome SchedState :=
  if s.currentCount semaphore < s.maxCount semaphore then
    .ok { s with
      currentCount := update s.currentCount semaphore ((s.currentCount semaphore + 1) % 2 ^ 16) }
  else blockOnSemaphore s semaphore

/-- `acquire_semaphore` up to `unlock_scheduler`. -/
def enterAcquireSemaphore (s : SchedState) (semaphore : ℕ) : Outcome SchedState :=
  if semaphore ∉ s.semaphores then .error (.fault semaphore)
  else do
    let s ← lockAtomic s
    let s ← takeToken s semaphore
    leaveAtomic s

def acquireSemaphore (s : SchedState) (semaphore : ℕ) : Outcome SchedState := do
  let s ← enterAcquireSemaphore s semaphore
  unlockScheduler s

def giveToken (s : SchedState) (semaphore : ℕ) : Outcome SchedState :=
  if s.semFirst semaphore = 0 then
    .ok (if 0 < s.currentCount semaphore then
      { s with currentCount := update s.currentCount semaphore (s.currentCount semaphore - 1) }
    else s)
  else do
    let thread := s.semFirst semaphore
    let s ← s.modify thread fun t => { t with state := .ready }
    let second ← s.readNext thread
    let s := { s with semFirst := update s.semFirst semaphore second }
    let t ← s.load thread
    let s ← enqueueThread s thread t.priority
    yield s

/-- `release_semaphore` up to `unlock_scheduler`. -/
def enterReleaseSemaphore (s : SchedState) (semaphore : ℕ) : Outcome SchedState :=
  if semaphore ∉ s.semaphores then .error (.fault semaphore)
  else do
    let s ← lockAtomic s
    let s ← giveToken s semaphore
    leaveAtomic s

def releaseSemaphore (s : SchedState) (semaphore : ℕ) : Outcome SchedState := do
  let s ← enterReleaseSemaphore s semaphore
  unlockScheduler s

end Services

section Threads

/-- EFLAGS with interrupts enabled, as a new stack and a new control block hold it. -/
def newEflags : BitVec 32 := 0x202#32

/-- The control block of a new thread; `wake_time` keeps whatever the memory held. -/
def newThread (id : ℕ) (old : Thread) : Thread where
  state := .ready
  timeUsed := 0
  wakeTime := old.wakeTime
  id := id
  savedInterruptState := newEflags
  priority := 0
  remainingTime := firstLimit
  frameEflags := newEflags

/-- `create_kernel_thread`, with the address its `kmalloc` returned. -/
def createKernelThread (s : SchedState) (thread : ℕ) : Outcome SchedState :=
  let id := (s.id + 1) % 2 ^ 32
  enqueueThread { s with
    alive := insert thread s.alive
    tcb := update s.tcb thread (newThread id (s.tcb thread))
    id := id } thread 0

def rootThread (old : Thread) : Thread where
  state := .running
  timeUsed := 0
  wakeTime := old.wakeTime
  id := 0
  savedInterruptState := newEflags
  priority := 0
  remainingTime := firstLimit
  frameEflags := old.frameEflags

def idleThreadBlock (old : Thread) : Thread where
  state := .ready
  timeUsed := 0
  wakeTime := old.wakeTime
  id := 2 ^ 32 - 2
  savedInterruptState := newEflags
  priority := 2
  remainingTime := 0
  frameEflags := newEflags

/-- `initialize_multitasking`, with the addresses of its three control blocks. -/
def initializeMultitasking (s : SchedState) (root idle cleaner : ℕ) : Outcome SchedState :=
  createKernelThread { s with
    alive := insert idle (insert root s.alive)
    tcb := update (update s.tcb root (rootThread (s.tcb root))) idle (idleThreadBlock (s.tcb idle))
    currentThread := root
    idleThread := idle } cleaner

def createMutex (s : SchedState) (mutex : ℕ) : SchedState :=
  { s with
    mutexes := insert mutex s.mutexes
    ownerThread := update s.ownerThread mutex 0
    mutexFirst := update s.mutexFirst mutex 0
    mutexLast := update s.mutexLast mutex 0 }

def createSemaphore (s : SchedState) (semaphore maxCount : ℕ) : SchedState :=
  { s with
    semaphores := insert semaphore s.semaphores
    maxCount := update s.maxCount semaphore maxCount
    currentCount := update s.currentCount semaphore 0
    semFirst := update s.semFirst semaphore 0
    semLast := update s.semLast semaphore 0 }

/-- The locked part of `cleaner_task`: the terminated queue becomes its own. -/
def detachTerminated (s : SchedState) : Outcome SchedState := do
  let s ← lockScheduler s
  let queue := s.terminatedThreadQueue
  let s := { s with
    terminatedThreadQueue := if queue ≠ 0 then 0 else s.terminatedThreadQueue
    detachedQueue := queue }
  unlockScheduler s

/-- One round of the cleaner's loop: the control block is freed. -/
def reapThread (s : SchedState) : Outcome SchedState := do
  let tmp ← s.readNext s.detachedQueue
  return { s with alive := s.alive.erase s.detachedQueue, detachedQueue := tmp }

end Threads

end KallarOS.Sched
