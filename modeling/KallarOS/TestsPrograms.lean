import KallarOS.TestsModel

namespace KallarOS.Tests
open Function Sched

instance : Fintype LockVar :=
  ⟨{.vgaMutex, .bouncerSem, .testBarrierSem}, fun v => by cases v <;> decide⟩

instance : Fintype Task :=
  ⟨{.taskA, .taskB, .task1, .task2, .task3, .task4}, fun t => by cases t <;> decide⟩

def LockVar.capacity : LockVar → ℕ
  | vgaMutex => 1
  | bouncerSem => 2
  | testBarrierSem => 6

/-- The barrier starts with as many tokens as the root thread asks for before any task
is there to give them back. -/
def LockVar.opening : LockVar → ℤ
  | vgaMutex => 0
  | bouncerSem => 0
  | testBarrierSem => 6

def LockVar.create : LockVar → Stmt
  | vgaMutex => .createMutex
  | bouncerSem => .createSemaphore .bouncerSem 2
  | testBarrierSem => .createSemaphore .testBarrierSem 6

/-- What a statement adds to the tokens of `v` that are still to be given back. -/
def Stmt.due (v : LockVar) : Stmt → ℤ
  | acquire w => if w = v then -1 else 0
  | release w => if w = v then 1 else 0
  | _ => 0

/-- A thread that is still to be created counts with its program. -/
def Stmt.owed (v : LockVar) : Stmt → ℤ
  | createKernelThread task => (task.program.map (due v)).sum
  | st => st.due v

/-- The tokens of `v` a thread owes that has `l` still to do. -/
def owed (v : LockVar) (l : List Stmt) : ℤ := (l.map (Stmt.owed v)).sum

theorem owed_cons (v : LockVar) (st : Stmt) (l : List Stmt) :
    owed v (st :: l) = st.owed v + owed v l := by
  rw [owed, List.map_cons, List.sum_cons, owed]

theorem owed_program (v : LockVar) (task : Task) :
    owed v task.program = (Stmt.createKernelThread task).owed v := by
  cases v <;> cases task <;> rfl

/-- What a task does. -/
def Stmt.OfTask : Stmt → Prop
  | acquire _ => True
  | release _ => True
  | threadSleep requestedTime => requestedTime < 2 ^ 32
  | threadExit => True
  | _ => False

/-- What the root thread does. -/
def Stmt.OfRoot : Stmt → Prop
  | createSemaphore v maxCount => createSemaphore v maxCount = v.create
  | release _ => False
  | threadSleep _ => False
  | threadExit => False
  | _ => True

instance : (st : Stmt) → Decidable st.OfTask
  | .acquire _ | .release _ | .threadExit => inferInstanceAs (Decidable True)
  | .threadSleep _ => inferInstanceAs (Decidable (_ < _))
  | .createMutex | .createSemaphore _ _ | .createKernelThread _ | .kfree _ | .printf _ =>
    inferInstanceAs (Decidable False)

instance : (st : Stmt) → Decidable st.OfRoot
  | .createSemaphore _ _ => inferInstanceAs (Decidable (_ = _))
  | .release _ | .threadSleep _ | .threadExit => inferInstanceAs (Decidable False)
  | .createMutex | .createKernelThread _ | .acquire _ | .kfree _ | .printf _ =>
    inferInstanceAs (Decidable True)

variable {l : List Stmt} {st : Stmt} {task : Task} {v w : LockVar}

theorem of_tails {p : List Stmt} {P : List Stmt → Prop} (hP : ∀ l ∈ p.tails, P l) (h : l <:+ p) :
    P l := hP l ((List.mem_tails l p).mpr h)

section Root

theorem root_statement (h : st :: l <:+ multitaskingRunTest) : st.OfRoot := by
  have hP : ∀ l ∈ multitaskingRunTest.tails, ∀ st ∈ l.head?, st.OfRoot := by decide
  exact of_tails hP h st rfl

/-- The root thread never has more to ask for than the barrier was opened with, and
gives nothing back. -/
theorem root_owed (h : l <:+ multitaskingRunTest) (v : LockVar) :
    0 ≤ owed v l + v.opening ∧ owed v l ≤ 0 := by
  have hP : ∀ l ∈ multitaskingRunTest.tails, ∀ v, 0 ≤ owed v l + LockVar.opening v ∧ owed v l ≤ 0 := by
    decide
  exact of_tails hP h v

/-- It waits at the barrier only, and frees the locks later. -/
theorem root_acquire (h : .acquire v :: l <:+ multitaskingRunTest) :
    v = .testBarrierSem ∧ v.create ∉ l ∧ ∀ w, .kfree w ∈ l := by
  have hP : ∀ l ∈ multitaskingRunTest.tails, ∀ v, l.head? = some (.acquire v) →
      v = .testBarrierSem ∧ v.create ∉ l.tail ∧ ∀ w, .kfree w ∈ l.tail := by decide
  exact of_tails hP h v rfl

/-- A lock is made once, the barrier last, and then its books are even. -/
theorem root_create (h : v.create :: l <:+ multitaskingRunTest) :
    owed v l + v.opening = 0 ∧ (∀ w, .kfree w ∈ l) ∧
      (v = .testBarrierSem → ∀ w, LockVar.create w ∉ l) := by
  have hP : ∀ l ∈ multitaskingRunTest.tails, ∀ v, l.head? = some (LockVar.create v) →
      owed v l.tail + v.opening = 0 ∧ (∀ w, .kfree w ∈ l.tail) ∧
        (v = .testBarrierSem → ∀ w, LockVar.create w ∉ l.tail) := by decide
  exact of_tails hP h v rfl

theorem root_spawn (h : .createKernelThread task :: l <:+ multitaskingRunTest) (v : LockVar) :
    v.create ∉ l := by
  have hP : ∀ l ∈ multitaskingRunTest.tails, ∀ task, l.head? = some (.createKernelThread task) →
      ∀ v, LockVar.create v ∉ l.tail := by decide
  exact of_tails hP h task rfl v

/-- The locks are freed once each, behind the barrier. -/
theorem root_kfree (h : .kfree v :: l <:+ multitaskingRunTest) :
    .kfree v ∉ l ∧ .acquire .testBarrierSem ∉ l := by
  have hP : ∀ l ∈ multitaskingRunTest.tails, ∀ v, l.head? = some (.kfree v) →
      .kfree v ∉ l.tail ∧ .acquire .testBarrierSem ∉ l.tail := by decide
  exact of_tails hP h v rfl

theorem root_freed (h : l <:+ multitaskingRunTest) (hv : .kfree v ∉ l) :
    .acquire .testBarrierSem ∉ l ∧ .kfree .vgaMutex ∉ l := by
  have hP : ∀ l ∈ multitaskingRunTest.tails, ∀ v, .kfree v ∉ l →
      .acquire .testBarrierSem ∉ l ∧ .kfree .vgaMutex ∉ l := by decide
  exact of_tails hP h v hv

theorem root_passed (h : l <:+ multitaskingRunTest) (hp : .acquire .testBarrierSem ∉ l) :
    owed .testBarrierSem l = 0 ∧ ∀ v, LockVar.create v ∉ l := by
  have hP : ∀ l ∈ multitaskingRunTest.tails, .acquire .testBarrierSem ∉ l →
      owed .testBarrierSem l = 0 ∧ ∀ v, LockVar.create v ∉ l := by decide
  exact of_tails hP h hp

theorem root_holds (h : l <:+ multitaskingRunTest) (v : LockVar) :
    l.find? (fun st => st = .acquire v ∨ st = .release v) ≠ some (.release v) := by
  have hP : ∀ l ∈ multitaskingRunTest.tails, ∀ v : LockVar,
      l.find? (fun st => st = .acquire v ∨ st = .release v) ≠ some (.release v) := by decide
  exact of_tails hP h v

end Root

section Tasks

theorem task_statement (h : st :: l <:+ task.program) :
    st.OfTask ∧ (st = .threadExit → l = []) := by
  have hP : ∀ task : Task, ∀ l ∈ task.program.tails, ∀ st ∈ l.head?,
      st.OfTask ∧ (st = .threadExit → l.tail = []) := by decide
  exact of_tails (hP task) h st rfl

/-- A task never owes more than one token. -/
theorem task_owed (h : l <:+ task.program) (v : LockVar) : 0 ≤ owed v l ∧ owed v l ≤ 1 := by
  have hP : ∀ task : Task, ∀ l ∈ task.program.tails, ∀ v, 0 ≤ owed v l ∧ owed v l ≤ 1 := by decide
  exact of_tails (hP task) h v

theorem task_acquire (h : .acquire v :: l <:+ task.program) :
    v ≠ .testBarrierSem ∧ owed v l = 1 := by
  have hP : ∀ task : Task, ∀ l ∈ task.program.tails, ∀ v, l.head? = some (.acquire v) →
      v ≠ .testBarrierSem ∧ owed v l.tail = 1 := by decide
  exact of_tails (hP task) h v rfl

theorem task_release (h : .release v :: l <:+ task.program) : owed v (.release v :: l) = 1 := by
  have hP : ∀ task : Task, ∀ l ∈ task.program.tails, ∀ v, l.head? = some (.release v) →
      owed v l = 1 := by decide
  exact of_tails (hP task) h v rfl

/-- Once it has reported to the barrier a task is done. -/
theorem task_done (h : l <:+ task.program) (h0 : owed .testBarrierSem l = 0) :
    l = [] ∨ l = [.threadExit] := by
  have hP : ∀ task : Task, ∀ l ∈ task.program.tails, owed .testBarrierSem l = 0 →
      l = [] ∨ l = [.threadExit] := by decide
  exact of_tails (hP task) h h0

theorem task_holds (h : l <:+ task.program) (hv : v ≠ .testBarrierSem)
    (hl : l.find? (fun st => st = .acquire v ∨ st = .release v) = some (.release v)) : owed v l = 1 := by
  have hP : ∀ task : Task, ∀ l ∈ task.program.tails, ∀ v : LockVar, v ≠ .testBarrierSem ∧
      l.find? (fun st => st = .acquire v ∨ st = .release v) = some (.release v) → owed v l = 1 := by decide
  exact of_tails (hP task) h v ⟨hv, hl⟩

/-- It holds one lock at a time. -/
theorem task_single (h : l <:+ task.program) (hv : v ≠ .testBarrierSem) (hw : w ≠ .testBarrierSem)
    (hvw : v ≠ w) (h1 : owed v l = 1) : owed w l = 0 := by
  have hP : ∀ task : Task, ∀ l ∈ task.program.tails, ∀ v w : LockVar,
      v ≠ .testBarrierSem ∧ w ≠ .testBarrierSem ∧ v ≠ w ∧ owed v l = 1 → owed w l = 0 := by decide
  exact of_tails (hP task) h v w ⟨hv, hw, hvw, h1⟩

end Tasks

end KallarOS.Tests
