import KallarOS.TestsPrograms

namespace KallarOS.Tests
open Function Sched Tokens

section Totals

/-- What the threads of `S` have still to do, counted by `f`. -/
def total (f : Stmt → ℤ) (S : Finset ℕ) (rest : ℕ → List Stmt) : ℤ := ∑ t ∈ S, ((rest t).map f).sum

variable {f : Stmt → ℤ} {S : Finset ℕ} {rest : ℕ → List Stmt} {t : ℕ} {st : Stmt} {l : List Stmt}

theorem total_congr {rest' : ℕ → List Stmt} (h : ∀ t ∈ S, rest' t = rest t) :
    total f S rest' = total f S rest :=
  Finset.sum_congr rfl fun t ht => by rw [h t ht]

theorem total_pop (ht : t ∈ S) (hrest : rest t = st :: l) :
    total f S (update rest t l) = total f S rest - f st := by
  have hothers : total f (S.erase t) (update rest t l) = total f (S.erase t) rest :=
    total_congr fun u hu => update_of_ne (Finset.ne_of_mem_erase hu) _ _
  have hnew : total f S (update rest t l) = (l.map f).sum + total f (S.erase t) (update rest t l) := by
    rw [total, ← Finset.add_sum_erase S _ ht, update_self, total]
  have hold : total f S rest = f st + (l.map f).sum + total f (S.erase t) rest := by
    rw [total, ← Finset.add_sum_erase S _ ht, hrest, List.map_cons, List.sum_cons, total]
  rw [hnew, hold, hothers]
  ring

theorem total_insert (ht : t ∉ S) :
    total f (insert t S) (update rest t l) = total f S rest + (l.map f).sum := by
  have hothers : total f S (update rest t l) = total f S rest :=
    total_congr fun u hu => update_of_ne (ne_of_mem_of_not_mem hu ht) _ _
  rw [← hothers, total, Finset.sum_insert ht, update_self, total, add_comm]

theorem total_erase (h0 : rest t = []) : total f (S.erase t) rest = total f S rest := by
  by_cases ht : t ∈ S
  · rw [total, total, ← Finset.add_sum_erase S _ ht, h0, List.map_nil, List.sum_nil, zero_add]
  · rw [Finset.erase_eq_of_notMem ht]

end Totals

/-- Who may wait for `v`: the root thread at the barrier, with all locks still to be
freed, and tasks that will give back what they wait for. -/
def LockVar.Asks (v : LockVar) (root t : ℕ) (l : List Stmt) : Prop :=
  if v = .testBarrierSem then t = root ∧ .kfree .vgaMutex ∈ l else t ≠ root ∧ owed v l = 1

/-- The books of one lock. -/
structure Account (root : ℕ) (x : Test) (a : Plan) (v : LockVar) : Prop where
  capacity : a.locks.capacity (v.lock x.global) = v.capacity
  balanced : Balanced v.capacity a.alive (fun t => owed v (x.rest t)) v.opening
    (a.locks.bank (v.lock x.global))
  asks : ∀ t ∈ a.locks.waiters (v.lock x.global), v.Asks root t (x.rest t)

def reports (l : List Stmt) : List String :=
  l.filterMap fun
    | .printf text => some text
    | _ => none

/-- Every thread is somewhere in its program, and the cleaner at its own. -/
structure Threads (root cleaner : ℕ) (x : Test) (a : Plan) : Prop where
  root_works : a.Works root
  cleaner_works : a.Works cleaner
  cleaner_rest : x.rest cleaner = []
  root_rest : x.rest root <:+ multitaskingRunTest
  task_rest : ∀ t ≠ root, ∃ task : Task, x.rest t <:+ task.program
  works : ∀ t, x.rest t ≠ [] → a.Works t
  early : ∀ v : LockVar, v.create ∈ x.rest root → ∀ t ≠ root, x.rest t = []
  report : x.printed ++ reports (x.rest root) = ["Multitasking tests passed!\n"]

/-- What holds throughout the test. -/
structure Inv (root cleaner : ℕ) (x : Test) (a : Plan) : Prop
    extends Regular x.state a, Threads root cleaner x a where
  account : ∀ v : LockVar, v.create ∉ x.rest root → Account root x a v
  apart : LockVar.testBarrierSem.create ∉ x.rest root → x.global .bouncerSem ≠ x.global .testBarrierSem
  known : ∀ v : LockVar, v.create ∉ x.rest root → .kfree v ∈ x.rest root → a.Has (v.lock x.global)
  only : ∀ k, ∀ t ∈ a.locks.waiters k, ∃ v : LockVar, v.create ∉ x.rest root ∧ k = v.lock x.global

variable {root cleaner t : ℕ} {x x' : Test} {a b : Plan} {v w : LockVar} {st : Stmt} {l : List Stmt}
  {e : Event}

section Accounts

theorem capacity_pos (v : LockVar) : 0 < v.capacity := by cases v <;> decide

theorem capacity_lt (v : LockVar) : v.capacity < 2 ^ 16 := by cases v <;> decide

theorem Account.fresh (hbank : b.locks.bank (v.lock x'.global) = ⟨0, []⟩)
    (hcap : b.locks.capacity (v.lock x'.global) = v.capacity)
    (hsum : total (Stmt.owed v) b.alive x'.rest + v.opening = 0) : Account root x' b v where
  capacity := hcap
  balanced := by
    rw [hbank]
    exact Balanced.empty hsum
  asks t ht := by
    rw [← Locks.waiters_bank, hbank] at ht
    cases ht

/-- Steps that are not about the lock. -/
theorem Account.other (h : Account root x a v)
    (hbank : b.locks.bank (v.lock x'.global) = a.locks.bank (v.lock x.global) ∧
      b.locks.capacity (v.lock x'.global) = a.locks.capacity (v.lock x.global))
    (hsum : total (Stmt.owed v) b.alive x'.rest = total (Stmt.owed v) a.alive x.rest)
    (hrest : ∀ t ∈ a.locks.waiters (v.lock x.global), x'.rest t = x.rest t) : Account root x' b v where
  capacity := hbank.2.trans h.capacity
  balanced := by
    rw [hbank.1]
    exact h.balanced.congr hsum
  asks t ht := by
    rw [← Locks.waiters_bank, hbank.1, Locks.waiters_bank] at ht
    rw [hrest t ht]
    exact h.asks t ht

theorem Account.acquire (h : Account root x a v) (hglobal : x'.global = x.global) (ht : t ≠ 0)
    (hlocks : b.locks = a.locks.step t (v.lock x.global).acquire)
    (hsum : total (Stmt.owed v) b.alive x'.rest = total (Stmt.owed v) a.alive x.rest + 1)
    (hrest : ∀ t ∈ a.locks.waiters (v.lock x.global), x'.rest t = x.rest t)
    (hasks : v.Asks root t (x'.rest t)) : Account root x' b v := by
  have hcap : a.locks.capacity (v.lock x.global) < 2 ^ 16 := h.capacity ▸ capacity_lt v
  have hbank : b.locks.bank (v.lock x'.global) =
      (a.locks.bank (v.lock x.global)).acquire v.capacity t := by
    rw [hlocks, hglobal, Locks.bank_acquire ht hcap, h.capacity]
  refine ⟨?_, ?_, fun u hu => ?_⟩
  · rw [hlocks, hglobal, ← h.capacity]
    cases v <;> rw [LockVar.lock, Lock.acquire, Locks.step] <;> split_ifs <;> rfl
  · rw [hbank]
    exact h.balanced.acquire hsum t
  · rw [← Locks.waiters_bank, hbank, Bank.acquire] at hu
    split_ifs at hu
    · rw [Locks.waiters_bank] at hu
      rw [hrest u hu]
      exact h.asks u hu
    · rcases List.mem_append.mp hu with hu | hu
      · rw [Locks.waiters_bank] at hu
        rw [hrest u hu]
        exact h.asks u hu
      · rw [List.mem_singleton.mp hu]
        exact hasks

theorem Account.release (h : Account root x a v) (hglobal : x'.global = x.global)
    (h0 : 0 ∉ a.locks.waiters (v.lock x.global))
    (hlocks : b.locks = a.locks.step t (v.lock x.global).release)
    (hsum : total (Stmt.owed v) b.alive x'.rest = total (Stmt.owed v) a.alive x.rest - 1)
    (hpos : 0 < total (Stmt.owed v) a.alive x.rest + v.opening)
    (hrest : ∀ t ∈ a.locks.waiters (v.lock x.global), x'.rest t = x.rest t) : Account root x' b v := by
  have hout : a.locks.waiters (v.lock x.global) ≠ [] →
      0 < (a.locks.bank (v.lock x.global)).taken := by
    intro hne
    rw [← Locks.waiters_bank] at hne
    rw [h.balanced.full hne]
    exact capacity_pos v
  have hbank : b.locks.bank (v.lock x'.global) = (a.locks.bank (v.lock x.global)).release := by
    rw [hlocks, hglobal, Locks.bank_release h0 hout]
  refine ⟨?_, ?_, fun u hu => ?_⟩
  · rw [hlocks, hglobal, ← h.capacity]
    cases v <;> rw [LockVar.lock, Lock.release, Locks.step]
    · rfl
    · split_ifs <;> rfl
    · split_ifs <;> rfl
  · rw [hbank]
    exact h.balanced.release hsum hpos
  · rw [← Locks.waiters_bank, hbank, Bank.release] at hu
    have hold : u ∈ a.locks.waiters (v.lock x.global) := by
      split_ifs at hu
      · rwa [Locks.waiters_bank] at hu
      · have hmem := List.mem_of_mem_tail hu
        rwa [Locks.waiters_bank] at hmem
    rw [hrest u hold]
    exact h.asks u hold

end Accounts

section Programs

/-- A thread that is not the root thread and has something to do is a task. -/
theorem Threads.statement (h : Threads root cleaner x a) (hrest : x.rest t = st :: l) :
    t = root ∧ st :: l <:+ multitaskingRunTest ∨
      t ≠ root ∧ ∃ task : Task, st :: l <:+ task.program := by
  by_cases hroot : t = root
  · subst hroot
    exact .inl ⟨rfl, hrest ▸ h.root_rest⟩
  · obtain ⟨task, htask⟩ := h.task_rest t hroot
    exact .inr ⟨hroot, task, hrest ▸ htask⟩

/-- What no task does is up to the root thread. -/
theorem Threads.at_root (h : Threads root cleaner x a) (hrest : x.rest t = st :: l) (hst : ¬ st.OfTask) :
    t = root ∧ st :: l <:+ multitaskingRunTest := by
  rcases h.statement hrest with hroot | ⟨-, task, hp⟩
  · exact hroot
  · exact absurd (task_statement hp).1 hst

/-- The root thread frees the locks behind the barrier. -/
theorem Threads.freeing (h : Threads root cleaner x a) (hrest : x.rest root = .kfree v :: l) :
    .acquire .testBarrierSem ∉ x.rest root := by
  have hp := h.root_rest
  rw [hrest] at hp ⊢
  rw [List.mem_cons, not_or]
  exact ⟨by simp, (root_kfree hp).2⟩

theorem reports_pop {rest : ℕ → List Stmt} (hrest : rest t = st :: l)
    (hst : reports (st :: l) = reports l) :
    reports (update rest t l root) = reports (rest root) := by
  rw [update_apply]
  split_ifs with hroot
  · rw [hroot, hrest, hst]
  · rfl

/-- The thread goes on; `thread_exit` is the last thing it does. -/
theorem Threads.pop (h : Threads root cleaner x a) (hrest : x.rest t = st :: l)
    (hnew : x'.rest = update x.rest t l)
    (hworks : ∀ u, a.Works u → (st = .threadExit → u ≠ t) → b.Works u)
    (hreport : x'.printed ++ reports (x'.rest root) = x.printed ++ reports (x.rest root)) :
    Threads root cleaner x' b := by
  have hsub : ∀ u, x'.rest u <:+ x.rest u := by
    intro u
    rw [hnew, update_apply]
    split_ifs with hu
    · rw [hu, hrest]
      exact List.suffix_cons _ _
    · exact List.suffix_refl _
  have hexit : st = .threadExit → x'.rest t = [] ∧ t ≠ root := by
    rintro rfl
    rw [hnew, update_self]
    rcases h.statement hrest with ⟨-, hp⟩ | ⟨hne, task, hp⟩
    · exact absurd (root_statement hp) id
    · exact ⟨(task_statement hp).2 rfl, hne⟩
  have hcleaner : cleaner ≠ t := by
    rintro rfl
    rw [h.cleaner_rest] at hrest
    cases hrest
  refine ⟨hworks root h.root_works fun hst hroot => (hexit hst).2 hroot.symm,
    hworks cleaner h.cleaner_works fun _ => hcleaner,
    (congrFun hnew cleaner).trans ((update_of_ne hcleaner _ _).trans h.cleaner_rest),
    (hsub root).trans h.root_rest, fun u hu => ?_, fun u hu => ?_, fun v hv u hu => ?_,
    hreport.trans h.report⟩
  · obtain ⟨task, htask⟩ := h.task_rest u hu
    exact ⟨task, (hsub u).trans htask⟩
  · have hold : x.rest u ≠ [] := by
      intro h0
      have hsuf := hsub u
      rw [h0, List.suffix_nil] at hsuf
      exact hu hsuf
    refine hworks u (h.works u hold) fun hst hut => hu ?_
    rw [hut]
    exact (hexit hst).1
  · have hsuf := hsub u
    rw [h.early v ((hsub root).subset hv) u hu, List.suffix_nil] at hsuf
    exact hsuf

/-- The root thread creates a thread, which starts at the top of its program. -/
theorem Threads.spawn {new : ℕ} {task : Task} (h : Threads root cleaner x a)
    (hrest : x.rest root = .createKernelThread task :: l) (hfresh : new ∉ a.alive)
    (hnew : x'.rest = update (update x.rest root l) new task.program) (hprinted : x'.printed = x.printed)
    (hworks : ∀ u, a.Works u → b.Works u) (hborn : b.Works new) : Threads root cleaner x' b := by
  have hne : ∀ u, a.Works u → u ≠ new := fun u hu => ne_of_mem_of_not_mem hu.1 hfresh
  have hl : x'.rest root = l := by rw [hnew, update_of_ne (hne root h.root_works), update_self]
  have hother : ∀ u, u ≠ root → u ≠ new → x'.rest u = x.rest u := by
    intro u hu hu'
    rw [hnew, update_of_ne hu', update_of_ne hu]
  have hcleaner : cleaner ≠ root := by
    rintro rfl
    rw [h.cleaner_rest] at hrest
    cases hrest
  refine ⟨hworks root h.root_works, hworks cleaner h.cleaner_works, ?_, ?_, fun u hu => ?_, fun u hu => ?_,
    fun v hv => ?_, ?_⟩
  · exact (hother cleaner hcleaner (hne cleaner h.cleaner_works)).trans h.cleaner_rest
  · rw [hl]
    exact (hrest ▸ List.suffix_cons _ l : l <:+ x.rest root).trans h.root_rest
  · by_cases hu' : u = new
    · exact ⟨task, by rw [hu', hnew, update_self]⟩
    · rw [hother u hu hu']
      exact h.task_rest u hu
  · by_cases hu' : u = new
    · exact hu' ▸ hborn
    · by_cases hur : u = root
      · exact hworks u (hur ▸ h.root_works)
      · exact hworks u (h.works u ((hother u hur hu') ▸ hu))
  · rw [hl] at hv
    exact absurd hv (root_spawn (hrest ▸ h.root_rest) v)
  · rw [hprinted, hl, ← h.report, hrest]
    rfl

/-- All but the root thread owe what they have to give back. -/
theorem Threads.owed_nonneg (h : Threads root cleaner x a) (ht : t ≠ root) (v : LockVar) :
    0 ≤ owed v (x.rest t) := by
  obtain ⟨task, htask⟩ := h.task_rest t ht
  exact (task_owed htask v).1

theorem Threads.owed_nonneg_of (h : Threads root cleaner x a) (hv : v ≠ .testBarrierSem) (t : ℕ) :
    0 ≤ owed v (x.rest t) := by
  by_cases ht : t = root
  · have hroot := (root_owed h.root_rest v).1
    have hopening : v.opening = 0 := by cases v <;> trivial
    rw [ht]
    omega
  · exact h.owed_nonneg ht v

/-- A task that is about to release a lock has a token of it. -/
theorem Threads.total_pos (h : Threads root cleaner x a) (ht : t ≠ root)
    (hrest : x.rest t = .release v :: l) :
    0 < total (Stmt.owed v) a.alive x.rest + v.opening := by
  obtain ⟨task, htask⟩ := h.task_rest t ht
  rw [hrest] at htask
  have hone : owed v (x.rest t) = 1 := hrest ▸ task_release htask
  have hroot := (root_owed h.root_rest v).1
  have hmem : t ∈ a.alive := (h.works t (by simp [hrest])).1
  have hsub : {root, t} ⊆ a.alive := by
    intro u hu
    rcases Finset.mem_insert.mp hu with rfl | hu
    · exact h.root_works.1
    · exact Finset.mem_singleton.mp hu ▸ hmem
  have hle := Finset.sum_le_sum_of_subset_of_nonneg (f := fun t => owed v (x.rest t)) hsub
    fun u _ hu => h.owed_nonneg (fun hur => hu (by simp [hur])) v
  rw [Finset.sum_pair ht.symm] at hle
  change 0 < ∑ t ∈ a.alive, owed v (x.rest t) + v.opening
  omega

/-- While a task has anything to do, all locks have been made. -/
theorem Threads.created (h : Threads root cleaner x a) (ht : t ≠ root) (hrest : x.rest t ≠ [])
    (v : LockVar) :
    v.create ∉ x.rest root := fun hv => hrest (h.early v hv t ht)

end Programs

section Barrier

/-- Behind the barrier all tasks have done their work: the six tokens the root thread
got there are theirs. -/
theorem Inv.passed (h : Inv root cleaner x a) (hp : .acquire .testBarrierSem ∉ x.rest root)
    (hw : root ∉ a.locks.waiters (LockVar.testBarrierSem.lock x.global)) (ht : t ≠ root) :
    x.rest t = [] ∨ x.rest t = [.threadExit] := by
  obtain ⟨howed, hcreate⟩ := root_passed h.root_rest hp
  have hacc := h.account .testBarrierSem (hcreate _)
  have hnone : a.locks.waiters (LockVar.testBarrierSem.lock x.global) = [] := by
    apply List.eq_nil_iff_forall_not_mem.mpr
    intro u hu
    have hasks := hacc.asks u hu
    rw [LockVar.Asks, if_pos rfl] at hasks
    exact hw (hasks.1 ▸ hu)
  have htotal := hacc.balanced.total
  have hle := hacc.balanced.le
  rw [Locks.waiters_bank, hnone] at htotal
  change _ = _ + (6 : ℤ) at htotal
  change _ ≤ 6 at hle
  have hnonneg : ∀ u ∈ a.alive, 0 ≤ owed .testBarrierSem (x.rest u) := by
    intro u _
    by_cases hu : u = root
    · rw [hu, howed]
    · exact h.owed_nonneg hu _
  by_cases hal : t ∈ a.alive
  · have hone := Finset.single_le_sum hnonneg hal
    obtain ⟨task, htask⟩ := h.task_rest t ht
    apply task_done htask
    have hpos := (task_owed htask .testBarrierSem).1
    simp only [List.length_nil] at htotal
    omega
  · exact .inl (not_not.mp fun hne => hal (h.works t hne).1)

/-- As long as a task has a lock to take or to give back, none has been freed. -/
theorem Inv.unfreed (h : Inv root cleaner x a) (ht : t ≠ root) (hne : x.rest t ≠ [])
    (hexit : x.rest t ≠ [.threadExit]) (v : LockVar) : .kfree v ∈ x.rest root := by
  by_contra hv
  obtain ⟨hp, hvga⟩ := root_freed h.root_rest hv
  have hacc := h.account .testBarrierSem (h.created ht hne _)
  have hw : root ∉ a.locks.waiters (LockVar.testBarrierSem.lock x.global) := by
    intro hw
    have hasks := hacc.asks root hw
    rw [LockVar.Asks, if_pos rfl] at hasks
    exact hvga hasks.2
  rcases h.passed hp hw ht with h0 | h1
  · exact hne h0
  · exact hexit h1

theorem Inv.lock_ne (h : Inv root cleaner x a) (hv : v.create ∉ x.rest root) (hw : w.create ∉ x.rest root)
    (hvw : v ≠ w) : v.lock x.global ≠ w.lock x.global := by
  have hne := h.apart
  cases v <;> cases w <;> simp_all [LockVar.lock, eq_comm]

end Barrier

end KallarOS.Tests
