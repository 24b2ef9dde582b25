import KallarOS.SchedTokens

namespace KallarOS.Tests
open Function Sched

/-- The locks of tests.c by their variables. -/
inductive LockVar where
  | vgaMutex
  | bouncerSem
  | testBarrierSem
deriving DecidableEq

inductive Task where
  | taskA
  | taskB
  | task1
  | task2
  | task3
  | task4
deriving DecidableEq

/-- The statements of the multitasking test. Whether `acquire` and `release` are those of
a mutex or of a semaphore is a matter of the variable's type. -/
inductive Stmt where
  | createMutex
  | createSemaphore (v : LockVar) (maxCount : ℕ)
  | createKernelThread (task : Task)
  | acquire (v : LockVar)
  | release (v : LockVar)
  | threadSleep (requestedTime : ℕ)
  | threadExit
  | kfree (v : LockVar)
  | printf (text : String)
deriving DecidableEq

/-- A task visits its lock twice and reports to the barrier; its `pr` prints nothing. -/
def visits (v : LockVar) (requestedTime : ℕ) : List Stmt :=
  (List.replicate 2 [Stmt.acquire v, .threadSleep requestedTime, .release v]).flatten ++
    [Stmt.release .testBarrierSem]

def Task.body : Task → List Stmt
  | taskA => visits .vgaMutex 2
  | taskB => visits .vgaMutex 1
  | task1 => visits .bouncerSem 2
  | task2 => visits .bouncerSem 2
  | task3 => visits .bouncerSem 2
  | task4 => visits .bouncerSem 2

/-- The entry point returns to `thread_exit`. -/
def Task.program (task : Task) : List Stmt := task.body ++ [.threadExit]

def multitaskingRunTest : List Stmt :=
  [Stmt.createMutex, .createSemaphore .bouncerSem 2, .createSemaphore .testBarrierSem 6] ++
    List.replicate 6 (Stmt.acquire .testBarrierSem) ++
    [Stmt.createKernelThread .task1, .createKernelThread .task2, .createKernelThread .task3,
      .createKernelThread .task4, .createKernelThread .taskA, .createKernelThread .taskB] ++
    List.replicate 6 (Stmt.acquire .testBarrierSem) ++
    [Stmt.kfree .vgaMutex, .kfree .bouncerSem, .kfree .testBarrierSem,
      .printf "Multitasking tests passed!\n"]

/-- The scheduler with the variables of tests.c, what every thread has still to do, and
what has been printed. -/
structure Test where
  state : SchedState
  global : LockVar → ℕ
  rest : ℕ → List Stmt
  printed : List String

def LockVar.lock (global : LockVar → ℕ) : LockVar → Lock
  | vgaMutex => .mutex (global vgaMutex)
  | bouncerSem => .semaphore (global bouncerSem)
  | testBarrierSem => .semaphore (global testBarrierSem)

namespace Test

variable (x : Test)

def call (e : Event) : Outcome Test := do
  let s ← Sched.exec x.state e
  return { x with state := s }

/-- One statement of the current thread; `new` is the block `kmalloc` returns to it. -/
def exec (new : ℕ) : Stmt → Outcome Test
  | .createMutex => do
    let x ← x.call (.createMutex new)
    return { x with global := update x.global .vgaMutex new }
  | .createSemaphore v maxCount => do
    let x ← x.call (.createSemaphore new maxCount)
    return { x with global := update x.global v new }
  | .createKernelThread task => do
    let x ← x.call (.createKernelThread new)
    return { x with rest := update x.rest new task.program }
  | .acquire v => x.call (v.lock x.global).acquire
  | .release v => x.call (v.lock x.global).release
  | .threadSleep requestedTime => x.call (.threadSleep requestedTime)
  | .threadExit => x.call .threadExit
  | .kfree v => do
    let s ← x.state.kfree (v.lock x.global)
    return { x with state := s }
  | .printf text => .ok { x with printed := x.printed ++ [text] }

/-- The current thread goes on to its next statement. -/
def next (new : ℕ) : Outcome Test :=
  match x.rest x.state.currentThread with
  | [] => .ok x
  | st :: rest => exec { x with rest := update x.rest x.state.currentThread rest } new st

end Test

/-- A timer interrupt, the next statement of the current thread, or a call of the cleaner. -/
inductive Move where
  | tick
  | next (new : ℕ)
  | cleaner (e : Event)

def Test.run (x : Test) : Move → Outcome Test
  | .tick => x.call .tick
  | .next new => x.next new
  | .cleaner e => x.call e

/-- A block that `kmalloc` can return. -/
structure Unused (s : SchedState) (new : ℕ) : Prop where
  nonnull : new ≠ 0
  lt : new < 2 ^ 32
  alive : new ∉ s.alive
  mutexes : new ∉ s.mutexes
  semaphores : new ∉ s.semaphores

/-- What can happen next. The cleaner detaches and sleeps with an empty list and frees
its list in between. -/
def Test.Fits (cleaner : ℕ) (x : Test) : Move → Prop
  | .tick => True
  | .next new => x.rest x.state.currentThread ≠ [] ∧ Unused x.state new
  | .cleaner e => x.state.currentThread = cleaner ∧
    (x.state.detachedQueue = 0 ∧ (e = .detachTerminated ∨ e = .threadSleep 2000) ∨
      x.state.detachedQueue ≠ 0 ∧ e = .reapThread)

/-- A call is one atomic step, `create_kernel_thread` too: the code runs it with
interrupts on, and a tick inside it is not represented. -/
def Test.Step (cleaner : ℕ) (x x' : Test) : Prop := ∃ mv, x.Fits cleaner mv ∧ x.run mv = .ok x'

/-- The root thread is about to call `multitasking_run_test`. -/
def Test.start (s : SchedState) (root : ℕ) : Test where
  state := s
  global := fun _ => 0
  rest := update (fun _ => []) root multitaskingRunTest
  printed := []

end KallarOS.Tests
