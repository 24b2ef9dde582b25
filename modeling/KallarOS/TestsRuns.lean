import KallarOS.TestsSteps

namespace KallarOS.Tests
open Function Sched Relation

/-- The calls that leave the locks and everybody's program alone. -/
inductive Quiet : Event → Prop
  | tick : Quiet .tick
  | detach : Quiet .detachTerminated
  | reap : Quiet .reapThread
  | sleep : Quiet (.threadSleep 2000)

variable {root cleaner idle t : ℕ} {s : SchedState} {x x' : Test} {a : Plan} {v w : LockVar} {mv : Move}
  {e : Event}

section Moves

theorem Quiet.plain (he : Quiet e) : (∀ t, e ≠ .createKernelThread t) ∧ e ≠ .threadExit ∧
    ∀ (l : Locks) t, l.step t e = l := by
  cases he <;> exact ⟨by simp, by simp, fun _ _ => rfl⟩

/-- A move is a statement or a quiet call. -/
theorem Inv.quiet_move (h : Inv root cleaner x a) (hfits : x.Fits cleaner mv)
    (hmv : ∀ new, mv ≠ .next new) :
    ∃ e, Quiet e ∧ a.Allowed e ∧ x.run mv = x.call e ∧ (mv = .tick → e = .tick) := by
  cases mv with
  | tick => exact ⟨.tick, .tick, ⟨fun hne => absurd rfl hne, trivial⟩, rfl, fun _ => rfl⟩
  | next new => exact absurd rfl (hmv new)
  | cleaner e =>
    obtain ⟨hcur, hcall⟩ := hfits
    have hbusy : a.currentThread ≠ a.idleThread := by
      rw [← h.current, hcur]
      exact h.cleaner_works.2.2
    have hnil := h.rep.detachedQueue_eq_zero
    rcases hcall with ⟨hq, rfl | rfl⟩ | ⟨hq, rfl⟩
    · exact ⟨_, .detach, ⟨fun _ => hbusy, hnil.mp hq⟩, rfl, by simp⟩
    · exact ⟨_, .sleep, ⟨fun _ => hbusy, show 2000 < 2 ^ 32 by decide⟩, rfl, by simp⟩
    · exact ⟨_, .reap, ⟨fun _ => hbusy, fun hq' => hq (hnil.mpr hq')⟩, rfl, by simp⟩

/-- The statements the test has still to do. -/
def Test.left (x : Test) : ℤ := total Stmt.weight x.state.alive x.rest

theorem Inv.left_eq (h : Inv root cleaner x a) : x.left = left x a := by
  rw [Test.left, h.rep.alive_eq, left]

/-- The address is one of a control block, a mutex or a semaphore. -/
def Used (s : SchedState) (y : ℕ) : Prop := y ∈ s.alive ∨ y ∈ s.mutexes ∨ y ∈ s.semaphores

theorem Inv.used_iff (h : Inv root cleaner x a) (y : ℕ) :
    Used x.state y ↔ y ∈ a.alive ∨ y ∈ a.mutexes ∨ y ∈ a.semaphores := by
  rw [Used, h.rep.alive_eq, h.mutexes_eq, h.semaphores_eq]

theorem Inv.used_within {x' : Test} {b : Plan} {new y : ℕ} (h : Inv root cleaner x a)
    (h' : Inv root cleaner x' b) (hw : Plan.Within new a b) (hy : Used x'.state y) :
    Used x.state y ∨ y = new := by
  rw [h'.used_iff] at hy
  rw [h.used_iff]
  rcases hy with hy | hy | hy
  · exact (Finset.mem_insert.mp (hw.alive hy)).symm.imp_left .inl
  · exact (Finset.mem_insert.mp (hw.mutexes hy)).symm.imp_left fun hm => .inr (.inl hm)
  · exact (Finset.mem_insert.mp (hw.semaphores hy)).symm.imp_left fun hm => .inr (.inr hm)

/-- Every move that fits goes through. -/
theorem Inv.run (h : Inv root cleaner x a) (hfits : x.Fits cleaner mv) :
    ∃ x' b, x.run mv = .ok x' ∧ Inv root cleaner x' b ∧ x'.left ≤ x.left ∧
      (∀ new, mv = .next new → x'.left < x.left) ∧
      ∀ y, Used x'.state y → Used x.state y ∨ mv = .next y := by
  by_cases hmv : ∃ new, mv = .next new
  · obtain ⟨new, rfl⟩ := hmv
    obtain ⟨x', b, hrun, h', hless, hwithin⟩ := h.next hfits.1 hfits.2
    rw [← h.left_eq, ← h'.left_eq] at hless
    refine ⟨x', b, hrun, h', hless.le, fun _ _ => hless, fun y hy => ?_⟩
    exact (h.used_within h' hwithin hy).imp_right fun hy => by rw [hy]
  · obtain ⟨e, hq, he, hrun, -⟩ := h.quiet_move hfits fun new hnew => hmv ⟨new, hnew⟩
    obtain ⟨hcreate, hexit, hlocks⟩ := hq.plain
    obtain ⟨s', hcall, h', hleft⟩ := h.quiet he hcreate hexit (hlocks _ _)
    rw [← h.left_eq, ← h'.left_eq] at hleft
    refine ⟨_, _, hrun.trans hcall, h', hleft.le, fun new hnew => absurd ⟨new, hnew⟩ hmv, fun y hy => ?_⟩
    have hmakes : Plan.makes e = none := by cases hq <;> rfl
    have hwithin : Plan.Within (y + 1) a (a.step e) := h.resting.within_step he (.inl hmakes)
    exact .inl ((h.used_within h' hwithin hy).resolve_right (Nat.succ_ne_self y).symm)

theorem Inv.step (h : Inv root cleaner x a) (hstep : Test.Step cleaner x x') :
    ∃ b, Inv root cleaner x' b := by
  obtain ⟨mv, hfits, hrun⟩ := hstep
  obtain ⟨y, b, hy, h', -⟩ := h.run hfits
  cases hrun.symm.trans hy
  exact ⟨b, h'⟩

theorem Inv.steps (h : Inv root cleaner x a) (hsteps : ReflTransGen (Test.Step cleaner) x x') :
    ∃ b, Inv root cleaner x' b := by
  induction hsteps with
  | refl => exact ⟨a, h⟩
  | tail _ hstep ih =>
    obtain ⟨b, h'⟩ := ih
    exact h'.step hstep

theorem start_inv (hb : Boot s) (hc : s.counter < 100) (hm : Blocks root idle cleaner) :
    ∃ s₀, initializeMultitasking s root idle cleaner = .ok s₀ ∧
      Inv root cleaner (Test.start s₀ root) (startPlan s root idle cleaner) := by
  obtain ⟨s₀, hs₀, hreg⟩ := start_regular hb hc hm
  have hroot : (Test.start s₀ root).rest root = multitaskingRunTest := by simp [Test.start]
  have hother : ∀ u ≠ root, (Test.start s₀ root).rest u = [] := fun u hu => by simp [Test.start, hu]
  have hcreate : ∀ v : LockVar, v.create ∈ (Test.start s₀ root).rest root := by
    intro v
    rw [hroot]
    cases v <;> decide
  have hnone : ∀ k : Lock, (startPlan s root idle cleaner).locks.waiters k = [] := by
    intro k
    cases k <;> rfl
  have hal : (startPlan s root idle cleaner).alive = insert cleaner (initialState s root idle).alive := rfl
  have hdead : ∀ u, ¬ (startPlan s root idle cleaner).Dead u := by
    have hterm : (startPlan s root idle cleaner).queue .terminated = [] := rfl
    have hdet : (startPlan s root idle cleaner).queue .detached = [] := rfl
    intro u hu
    rw [Plan.Dead, hterm, hdet] at hu
    rcases hu with hu | hu <;> cases hu
  have hworks : ∀ u, u = root ∨ u = cleaner → (startPlan s root idle cleaner).Works u := by
    rintro u (rfl | rfl)
    · refine ⟨?_, hdead u, hm.apart.1⟩
      rw [hal]
      exact Finset.mem_insert_of_mem ((mem_initialState hb).mpr (.inr rfl))
    · refine ⟨?_, hdead u, hm.apart.2.2.symm⟩
      rw [hal]
      exact Finset.mem_insert_self _ _
  refine ⟨s₀, hs₀, hreg, ⟨hworks root (.inl rfl), hworks cleaner (.inr rfl), hother _ hm.apart.2.1.symm, ?_,
    fun u hu => ⟨.taskA, ?_⟩, fun u hu => ?_, fun _ _ u hu => hother u hu, ?_⟩,
    fun v hv => absurd (hcreate v) hv, fun hv => absurd (hcreate _) hv,
    fun v hv => absurd (hcreate v) hv, fun k u hu => ?_⟩
  · rw [hroot]
  · rw [hother u hu]
    exact List.nil_suffix
  · by_cases hur : u = root
    · exact hur ▸ hworks root (.inl rfl)
    · exact absurd (hother u hur) hu
  · rw [hroot]
    rfl
  · rw [hnone] at hu
    cases hu

end Moves

section Safety

/-- The thread is between taking the lock and giving it back. -/
structure Test.Inside (x : Test) (v : LockVar) (t : ℕ) : Prop where
  returned : (x.state.tcb t).state ≠ .blocked
  holds : (x.rest t).find? (fun st => st = .acquire v ∨ st = .release v) = some (.release v)

theorem Inv.inside (h : Inv root cleaner x a) (hv : v ≠ .testBarrierSem) (hi : x.Inside v t) :
    t ∈ a.alive ∧ t ∉ a.locks.waiters (v.lock x.global) ∧ owed v (x.rest t) = 1 := by
  have hne : x.rest t ≠ [] := by
    intro h0
    have hholds := hi.holds
    rw [h0] at hholds
    cases hholds
  refine ⟨(h.works t hne).1, fun hw => hi.returned ?_, ?_⟩
  · rw [h.rep.tcb_eq, h.resting.state _ t hw]
    cases v <;> rfl
  · by_cases ht : t = root
    · rw [ht] at hi
      exact absurd hi.holds (root_holds h.root_rest v)
    · obtain ⟨task, htask⟩ := h.task_rest t ht
      exact task_holds htask hv hi.holds

/-- The books of a lock as the library keeps them. -/
theorem Inv.holders (h : Inv root cleaner x a) (hv : v ≠ .testBarrierSem)
    (hcreate : v.create ∉ x.rest root) :
    Tokens.Balanced v.capacity a.alive (fun t => owed v (x.rest t)) 0 (a.locks.bank (v.lock x.global)) ∧
      (a.locks.bank (v.lock x.global)).waiters.Nodup ∧
      ∀ t ∈ (a.locks.bank (v.lock x.global)).waiters, t ∈ a.alive ∧ owed v (x.rest t) = 1 := by
  have hacc := h.account v hcreate
  have hopening : v.opening = 0 := by cases v <;> trivial
  rw [Locks.waiters_bank]
  refine ⟨hopening ▸ hacc.balanced, h.resting.nodup (v.lock x.global).place, fun t ht => ?_⟩
  have hasks := hacc.asks t ht
  rw [LockVar.Asks, if_neg hv] at hasks
  exact ⟨h.resting.alive (v.lock x.global).place t ht, hasks.2⟩

theorem Inv.inside_created (h : Inv root cleaner x a) (hv : v ≠ .testBarrierSem) (hi : x.Inside v t) :
    v.create ∉ x.rest root := by
  obtain ⟨-, -, howed⟩ := h.inside hv hi
  have ht : t ≠ root := by
    rintro rfl
    have hle := (root_owed h.root_rest v).2
    omega
  apply h.created ht
  intro h0
  rw [h0] at howed
  cases howed

/-- Wherever ticks come between the calls of the threads, each of them one atomic step,
every call of every thread of the self-test goes through until the end, so no lock is
used, waited for or freed after it has been freed; never more than one task is between
its acquire and its release of `vga_mutex`, nor more than two of `bouncer_sem`; and when
the root thread is past the barrier, all tasks are done. -/
theorem self_test_safe (hb : Boot s) (hc : s.counter < 100) (hm : Blocks root idle cleaner) :
    ∃ s₀, initializeMultitasking s root idle cleaner = .ok s₀ ∧
      ∀ x, ReflTransGen (Test.Step cleaner) (Test.start s₀ root) x →
        (∀ mv, x.Fits cleaner mv → ∃ x', x.run mv = .ok x') ∧
        (∀ H : Finset ℕ, (∀ t ∈ H, x.Inside .vgaMutex t) → H.card ≤ 1) ∧
        (∀ H : Finset ℕ, (∀ t ∈ H, x.Inside .bouncerSem t) → H.card ≤ 2) ∧
        (.acquire .testBarrierSem ∉ x.rest root → (x.state.tcb root).state ≠ .blocked →
          ∀ t ≠ root, x.rest t = [] ∨ x.rest t = [.threadExit]) := by
  obtain ⟨s₀, hs₀, hstart⟩ := start_inv hb hc hm
  refine ⟨s₀, hs₀, fun x hx => ?_⟩
  obtain ⟨a, h⟩ := hstart.steps hx
  have hcard : ∀ v ≠ LockVar.testBarrierSem, ∀ H : Finset ℕ, (∀ t ∈ H, x.Inside v t) →
      H.card ≤ v.capacity := by
    intro v hv H hH
    by_cases hempty : H = ∅
    · rw [hempty]
      exact Nat.zero_le _
    · obtain ⟨t, ht⟩ := Finset.nonempty_iff_ne_empty.mpr hempty
      have hcreate := h.inside_created hv (hH t ht)
      obtain ⟨hbalanced, hnodup, hwaiters⟩ := h.holders hv hcreate
      apply hbalanced.card_le hnodup hwaiters fun u _ => h.owed_nonneg_of hv u
      intro u hu
      rw [Locks.waiters_bank]
      exact h.inside hv (hH u hu)
  refine ⟨fun mv hfits => ?_, hcard .vgaMutex (by decide), hcard .bouncerSem (by decide),
    fun hp hstate t ht => ?_⟩
  · obtain ⟨x', -, hrun, -⟩ := h.run hfits
    exact ⟨x', hrun⟩
  · apply h.passed hp _ ht
    intro hw
    apply hstate
    rw [h.rep.tcb_eq]
    exact h.resting.state _ root hw

theorem self_test_safe_sample :
    ∃ s₀ x, initializeMultitasking zeroState 16 32 48 = .ok s₀ ∧
      (Test.start s₀ 16).run (.next 64) = .ok x := by
  obtain ⟨s₀, hs₀, h⟩ := self_test_safe zeroState_boot (by decide) sampleBlocks
  obtain ⟨s, hs, hstart⟩ := start_inv zeroState_boot (by decide) sampleBlocks
  cases hs.symm.trans hs₀
  have hfits : (Test.start s₀ 16).Fits 48 (.next 64) := by
    have hcur : (Test.start s₀ 16).state.currentThread = 16 := hstart.rep.current_eq
    have hused : ¬ Used s₀ 64 := fun hu => absurd ((hstart.used_iff 64).mp hu) (by decide)
    rw [Used, not_or, not_or] at hused
    refine ⟨?_, by decide, by decide, hused.1, hused.2.1, hused.2.2⟩
    rw [hcur]
    exact (List.cons_ne_nil _ _ : multitaskingRunTest ≠ [])
  obtain ⟨x, hx⟩ := (h _ .refl).1 _ hfits
  exact ⟨s₀, x, hs₀, hx⟩

end Safety

section Progress

/-- As long as the root thread has something to do, a thread that has something to do
waits for no lock: the root thread waits for a task, a task for the holder of its lock,
and who holds a lock waits for none. -/
theorem Inv.exists_free (h : Inv root cleaner x a) (hroot : x.rest root ≠ []) :
    ∃ t, x.rest t ≠ [] ∧ ∀ k, t ∉ a.locks.waiters k := by
  by_contra! hall
  -- everybody who waits does so for a lock that has been made
  have hwaits : ∀ t, x.rest t ≠ [] → ∃ v : LockVar, v.create ∉ x.rest root ∧
      t ∈ a.locks.waiters (v.lock x.global) ∧ v.Asks root t (x.rest t) := by
    intro t ht
    obtain ⟨k, hk⟩ := hall t ht
    obtain ⟨v, hv, rfl⟩ := h.only k t hk
    exact ⟨v, hv, hk, (h.account v hv).asks t hk⟩
  have htask : ∀ t, t ≠ root → x.rest t ≠ [] → ∃ v : LockVar, v ≠ .testBarrierSem ∧ v.create ∉ x.rest root ∧
      t ∈ a.locks.waiters (v.lock x.global) ∧ owed v (x.rest t) = 1 := by
    intro t ht hne
    obtain ⟨v, hcreate, hw, hasks⟩ := hwaits t hne
    rw [LockVar.Asks] at hasks
    split_ifs at hasks with hv
    · exact absurd hasks.1 ht
    · exact ⟨v, hv, hcreate, hw, hasks.2⟩
  have howes : ∀ (v : LockVar) t, 0 < owed v (x.rest t) → t ≠ root ∧ x.rest t ≠ [] := by
    intro v t hpos
    refine ⟨?_, fun h0 => ?_⟩
    · rintro rfl
      have hle := (root_owed h.root_rest v).2
      omega
    · rw [h0] at hpos
      exact absurd hpos (by cases v <;> decide)
  obtain ⟨v, hcreate, hw, hasks⟩ := hwaits root hroot
  obtain rfl : v = .testBarrierSem := by
    by_contra hv
    rw [LockVar.Asks, if_neg hv] at hasks
    exact hasks.1 rfl
  -- the barrier is closed, so some task has still to report
  have hacc := h.account .testBarrierSem hcreate
  have hlen := List.length_pos_of_mem hw
  have hfull := hacc.balanced.full
  have htotal := hacc.balanced.total
  rw [Locks.waiters_bank] at hfull htotal
  have hsix : _ = 6 := hfull (List.ne_nil_of_mem hw)
  change _ = _ + (6 : ℤ) at htotal
  have hpos : 0 < ∑ t ∈ a.alive, owed .testBarrierSem (x.rest t) := by omega
  obtain ⟨t, ht⟩ : ∃ t, 0 < owed .testBarrierSem (x.rest t) := by
    by_contra! hnone
    have hle := Finset.sum_nonpos fun t (_ : t ∈ a.alive) => hnone t
    omega
  obtain ⟨htr, hne⟩ := howes _ t ht
  obtain ⟨w, hwb, hwcreate, hwaits', -⟩ := htask t htr hne
  -- the task waits for a lock that somebody holds
  obtain ⟨hbalanced, hnodup, hwaiters⟩ := h.holders hwb hwcreate
  have hwaiting : (a.locks.bank (w.lock x.global)).waiters ≠ [] := by
    rw [Locks.waiters_bank]
    exact List.ne_nil_of_mem hwaits'
  obtain ⟨u, -, hu, hupos⟩ := hbalanced.exists_holder hnodup hwaiters hwaiting (capacity_pos w)
  rw [Locks.waiters_bank] at hu
  obtain ⟨hur, hune⟩ := howes w u hupos
  obtain ⟨w', hwb', -, hwaits'', hone⟩ := htask u hur hune
  obtain ⟨task, hprogram⟩ := h.task_rest u hur
  have hww : w' ≠ w := by
    rintro rfl
    exact hu hwaits''
  have hzero := task_single hprogram hwb' hwb hww hone
  omega

/-- A thread that gets the processor again and again with something left to do goes on. -/
def Lively (x : ℕ → Test) (mv : ℕ → Move) : Prop :=
  ∀ n t, (∀ k, n ≤ k → ∃ m, k ≤ m ∧ (x m).state.currentThread = t ∧ (x m).rest t ≠ []) →
    ∃ m, n ≤ m ∧ (x m).state.currentThread = t ∧ ∃ new, mv m = .next new

/-- An endless run. -/
structure Endless (cleaner : ℕ) (x : ℕ → Test) (mv : ℕ → Move) : Prop where
  fits : ∀ n, (x n).Fits cleaner (mv n)
  run : ∀ n, (x n).run (mv n) = .ok (x (n + 1))
  ticked : ∀ n, ∃ m, n ≤ m ∧ mv m = .tick
  lively : Lively x mv

variable {x : ℕ → Test} {mv : ℕ → Move} {n : ℕ}

theorem Endless.inv (hr : Endless cleaner x mv) (h : Inv root cleaner (x 0) a) (n : ℕ) :
    ∃ b, Inv root cleaner (x n) b := by
  induction n with
  | zero => exact ⟨a, h⟩
  | succ n ih =>
    obtain ⟨b, h'⟩ := ih
    exact h'.step ⟨mv n, hr.fits n, hr.run n⟩

/-- A stretch of a run in which nobody goes on is one of the scheduler alone. -/
theorem Endless.stretch (hr : Endless cleaner x mv) (h : Inv root cleaner (x 0) a)
    (hnone : ∀ m, n ≤ m → ∀ new, mv m ≠ .next new) :
    ∃ e : ℕ → Event, (∀ i, Quiet (e i)) ∧ (∀ i, mv (n + i) = .tick → e i = .tick) ∧
      (∀ i, (x (n + i)).rest = (x n).rest) ∧ ∀ i, Follows (fun i => (x (n + i)).state) e i := by
  have hmove : ∀ i, ∃ e, Quiet e ∧ e.Allowed (x (n + i)).state ∧ (mv (n + i) = .tick → e = .tick) ∧
      exec (x (n + i)).state e = .ok (x (n + (i + 1))).state ∧
      (x (n + (i + 1))).rest = (x (n + i)).rest := by
    intro i
    obtain ⟨b, hb⟩ := hr.inv h (n + i)
    obtain ⟨e, hq, he, hrun, htick⟩ := hb.quiet_move (hr.fits _) (hnone _ (Nat.le_add_right n i))
    obtain ⟨hcreate, hexit, hlocks⟩ := hq.plain
    obtain ⟨s', hcall, -, -⟩ := hb.quiet he hcreate hexit (hlocks _ _)
    have hallowed := hb.rep.allowed.mpr he
    obtain ⟨s'', hs'', -⟩ := hb.toSteady.exec hallowed
    have hnext := (hr.run (n + i)).symm.trans (hrun.trans hcall)
    rw [Test.call, hs''] at hcall
    cases hcall
    rw [← add_assoc, Except.ok.inj hnext]
    exact ⟨e, hq, hallowed, htick, hs'', rfl⟩
  choose e hquiet hallowed htick hexec hrest using hmove
  refine ⟨e, hquiet, htick, fun i => ?_, fun i j _ => ⟨hallowed j, hexec j⟩⟩
  induction i with
  | zero => rfl
  | succ i ih => exact (hrest i).trans ih

/-- In such a stretch a thread at work that waits for no lock gets the processor again
and again. -/
theorem Regular.runs_again {r : ℕ → SchedState} {e : ℕ → Event} (h : Regular (r 0) a)
    (hr : ∀ n, Follows r e n) (hquiet : ∀ i, Quiet (e i)) (hticks : ∀ n, ∃ m, n ≤ m ∧ e m = .tick)
    (hworks : a.Works t) (hfree : ∀ k, t ∉ a.locks.waiters k) (i : ℕ) :
    ∃ m, i ≤ m ∧ (r m).currentThread = t := by
  have hreg : ∀ i, Regular (r i) (a.after e i) := fun i => h.follows (hr i) le_rfl
  have hstays : (a.after e i).Works t ∧ (a.after e i).locks = a.locks := by
    induction i with
    | zero => exact ⟨hworks, rfl⟩
    | succ i ih =>
      obtain ⟨hw, hl⟩ := ih
      obtain ⟨-, hexit, hlocks⟩ := (hquiet i).plain
      have hallowed := (hreg i).rep.allowed.mp (hr (i + 1) i (Nat.lt_succ_self i)).1
      refine ⟨(hreg i).resting.works_step hallowed hw fun hx => absurd hx hexit, ?_⟩
      change ((a.after e i).step (e i)).locks = _
      rw [(hreg i).resting.locks_step, hlocks, hl]
  obtain ⟨⟨hal, hdead, hidle⟩, hlocks⟩ := hstays
  suffices hplan : ∃ m, i ≤ m ∧ (a.after e m).currentThread = t by
    obtain ⟨m, him, hm⟩ := hplan
    exact ⟨m, him, (hreg m).rep.current_eq.trans hm⟩
  by_cases hcur : t = (a.after e i).currentThread
  · exact ⟨i, le_rfl, hcur.symm⟩
  · obtain ⟨p, hp⟩ := (hreg i).resting.waits t hal hidle hcur
    cases p with
    | ready j =>
      have hlevel := (hreg i).resting.level j t hp
      exact h.eventually_ready hr hticks (hlevel ▸ (hreg i).resting.levels t hal) hp
    | sleeping => exact h.eventually_awake hr hticks hp
    | terminated => exact absurd (.inl hp) hdead
    | detached => exact absurd (.inr hp) hdead
    | mutex m =>
      have hw : t ∈ (a.after e i).locks.waiters (.mutex m) := hp
      rw [hlocks] at hw
      exact absurd hw (hfree _)
    | semaphore m =>
      have hw : t ∈ (a.after e i).locks.waiters (.semaphore m) := hp
      rw [hlocks] at hw
      exact absurd hw (hfree _)

/-- Until the root thread is done somebody goes on. -/
theorem Endless.goes_on (hr : Endless cleaner x mv) (h : Inv root cleaner (x 0) a)
    (hroot : (x n).rest root ≠ []) : ∃ m, n ≤ m ∧ ∃ new, mv m = .next new := by
  by_contra! hnone
  obtain ⟨e, hquiet, htick, hrest, hfollows⟩ := hr.stretch h hnone
  obtain ⟨b, hb⟩ := hr.inv h n
  obtain ⟨t, ht, hfree⟩ := hb.exists_free hroot
  have hticks : ∀ i, ∃ m, i ≤ m ∧ e m = .tick := by
    intro i
    obtain ⟨m, hm, hmv⟩ := hr.ticked (n + i)
    exact ⟨m - n, by omega, htick _ (by rwa [Nat.add_sub_cancel' (by omega)])⟩
  have hagain : ∀ k, n ≤ k → ∃ m, k ≤ m ∧ (x m).state.currentThread = t ∧ (x m).rest t ≠ [] := by
    intro k hk
    obtain ⟨m, hm, hcur⟩ := Regular.runs_again hb.toRegular hfollows hquiet hticks (hb.works t ht) hfree
      (k - n)
    refine ⟨n + m, by omega, hcur, ?_⟩
    rw [hrest]
    exact ht
  obtain ⟨m, hm, -, new, hmv⟩ := hr.lively n t hagain
  exact hnone m hm new hmv

theorem Test.left_nonneg (x : Test) : 0 ≤ x.left := by
  apply Finset.sum_nonneg
  intro t _
  apply List.sum_nonneg
  intro w hw
  obtain ⟨st, -, rfl⟩ := List.mem_map.mp hw
  cases st <;> simp [Stmt.weight]
  omega

theorem Endless.left_le (hr : Endless cleaner x mv) (h : Inv root cleaner (x 0) a) {m : ℕ} (hnm : n ≤ m) :
    (x m).left ≤ (x n).left := by
  induction m, hnm using Nat.le_induction with
  | base => exact le_rfl
  | succ m _ ih =>
    obtain ⟨b, hb⟩ := hr.inv h m
    obtain ⟨y, -, hy, -, hle, -, -⟩ := hb.run (hr.fits m)
    cases (hr.run m).symm.trans hy
    exact hle.trans ih

/-- The root thread gets to the end. -/
theorem Endless.ends (hr : Endless cleaner x mv) (h : Inv root cleaner (x 0) a) (n : ℕ) :
    ∃ m, n ≤ m ∧ (x m).rest root = [] := by
  generalize hk : (x n).left.toNat = k
  induction k using Nat.strong_induction_on generalizing n with
  | _ k ih =>
    by_cases hroot : (x n).rest root = []
    · exact ⟨n, le_rfl, hroot⟩
    · obtain ⟨m, hm, new, hmv⟩ := hr.goes_on h hroot
      obtain ⟨b, hb⟩ := hr.inv h m
      obtain ⟨y, -, hy, -, -, hless, -⟩ := hb.run (hr.fits m)
      cases (hr.run m).symm.trans hy
      have hlt := hless new hmv
      have hle := hr.left_le h hm
      have hnonneg := (x (m + 1)).left_nonneg
      obtain ⟨m', hm', hend⟩ := ih (x (m + 1)).left.toNat (by omega) (m + 1) rfl
      exact ⟨m', by omega, hend⟩

/-- In every endless run of atomic calls in which the timer keeps ticking and threads that
keep getting the processor go on, the self-test passes. -/
theorem self_test_passes (hb : Boot s) (hc : s.counter < 100) (hm : Blocks root idle cleaner) :
    ∃ s₀, initializeMultitasking s root idle cleaner = .ok s₀ ∧
      ∀ x mv, x 0 = Test.start s₀ root → Endless cleaner x mv →
        ∃ n, (x n).rest root = [] ∧ (x n).printed = ["Multitasking tests passed!\n"] := by
  obtain ⟨s₀, hs₀, hstart⟩ := start_inv hb hc hm
  refine ⟨s₀, hs₀, fun x mv hx hr => ?_⟩
  rw [← hx] at hstart
  obtain ⟨n, -, hend⟩ := hr.ends hstart 0
  obtain ⟨b, hb'⟩ := hr.inv hstart n
  have hreport := hb'.report
  rw [hend] at hreport
  exact ⟨n, hend, (List.append_nil _).symm.trans hreport⟩

end Progress

section Sample

variable {x : Test}

/-- A run in which the current thread always goes on, in blocks that come down in memory. -/
def eagerMove (x : Test) : Move :=
  if x.rest x.state.currentThread = [] then .tick else .next (2 ^ 20 + x.left.toNat)

def eagerRun (s₀ : SchedState) : ℕ → Test
  | 0 => Test.start s₀ 16
  | n + 1 =>
    match (eagerRun s₀ n).run (eagerMove (eagerRun s₀ n)) with
    | .ok x => x
    | .error _ => eagerRun s₀ n

/-- Every block that is not one of the first is above what the next statement gets. -/
structure Eager (x : Test) : Prop where
  inv : ∃ a, Inv 16 48 x a
  left_lt : x.left < 2 ^ 20
  high : ∀ y, Used x.state y → y < 2 ^ 20 ∨ 2 ^ 20 + x.left < y

theorem Eager.fits (h : Eager x) : x.Fits 48 (eagerMove x) := by
  rw [eagerMove]
  split_ifs with hrest
  · trivial
  · have hlt := h.left_lt
    have hnonneg := x.left_nonneg
    have hfree : ¬ Used x.state (2 ^ 20 + x.left.toNat) := by
      intro hu
      rcases h.high _ hu with hy | hy
      · omega
      · push_cast at hy
        omega
    rw [Used, not_or, not_or] at hfree
    exact ⟨hrest, by omega, by omega, hfree.1, hfree.2.1, hfree.2.2⟩

theorem Eager.step (h : Eager x) : ∃ x', x.run (eagerMove x) = .ok x' ∧ Eager x' ∧
    (eagerMove x ≠ .tick → x'.left < x.left) := by
  obtain ⟨a, ha⟩ := h.inv
  have hlt := h.left_lt
  have hnonneg := x.left_nonneg
  obtain ⟨x', b, hrun, hb, hle, hless, hused⟩ := ha.run h.fits
  have hmove : eagerMove x ≠ .tick → eagerMove x = .next (2 ^ 20 + x.left.toNat) := by
    intro hne
    rw [eagerMove] at hne ⊢
    split_ifs at hne ⊢
    · exact absurd rfl hne
    · rfl
  have hleft : eagerMove x ≠ .tick → x'.left < x.left := fun hne => hless _ (hmove hne)
  refine ⟨x', hrun, ⟨⟨b, hb⟩, by omega, fun y hy => ?_⟩, hleft⟩
  rcases hused y hy with hy | hy
  · exact (h.high y hy).imp_right fun hy => by omega
  · have hne : eagerMove x ≠ .tick := by simp [hy]
    have hnew := (hmove hne).symm.trans hy
    have hlower := hleft hne
    right
    rw [← Move.next.inj hnew]
    push_cast
    omega

theorem eager_run {s₀ : SchedState} (h : Eager (Test.start s₀ 16)) (n : ℕ) :
    Eager (eagerRun s₀ n) ∧
      (eagerRun s₀ n).run (eagerMove (eagerRun s₀ n)) = .ok (eagerRun s₀ (n + 1)) := by
  have hstep : ∀ n, Eager (eagerRun s₀ n) →
      (eagerRun s₀ n).run (eagerMove (eagerRun s₀ n)) = .ok (eagerRun s₀ (n + 1)) := by
    intro n hn
    obtain ⟨x', hx', -⟩ := hn.step
    rw [eagerRun, hx']
  induction n with
  | zero => exact ⟨h, hstep 0 h⟩
  | succ n ih =>
    obtain ⟨x', hx', h', -⟩ := ih.1.step
    have hnext : eagerRun s₀ (n + 1) = x' := Except.ok.inj (ih.2.symm.trans hx')
    have hn : Eager (eagerRun s₀ (n + 1)) := hnext ▸ h'
    exact ⟨hn, hstep _ hn⟩

/-- The timer ticks whenever nobody has anything to do. -/
theorem eager_ticked {s₀ : SchedState} (h : Eager (Test.start s₀ 16)) (n : ℕ) :
    ∃ m, n ≤ m ∧ eagerMove (eagerRun s₀ m) = .tick := by
  by_contra! hnone
  have hdown : ∀ i, (eagerRun s₀ (n + i)).left + i ≤ (eagerRun s₀ n).left := by
    intro i
    induction i with
    | zero => simp
    | succ i ih =>
      obtain ⟨hn, hrun⟩ := eager_run h (n + i)
      obtain ⟨x', hx', -, hless⟩ := hn.step
      have hlt := hless (hnone _ (Nat.le_add_right n i))
      rw [← Except.ok.inj (hrun.symm.trans hx')] at hlt
      rw [← add_assoc]
      push_cast
      omega
  have hlast := hdown ((eagerRun s₀ n).left.toNat + 1)
  have hnonneg := (eagerRun s₀ (n + ((eagerRun s₀ n).left.toNat + 1))).left_nonneg
  have hnonneg' := (eagerRun s₀ n).left_nonneg
  push_cast at hlast
  omega

theorem eager_endless {s₀ : SchedState} (h : Eager (Test.start s₀ 16)) :
    Endless 48 (eagerRun s₀) fun n => eagerMove (eagerRun s₀ n) where
  fits n := (eager_run h n).1.fits
  run n := (eager_run h n).2
  ticked := eager_ticked h
  lively n t hagain := by
    obtain ⟨m, hm, hcur, hrest⟩ := hagain n le_rfl
    refine ⟨m, hm, hcur, 2 ^ 20 + (eagerRun s₀ m).left.toNat, ?_⟩
    rw [← hcur] at hrest
    exact if_neg hrest

theorem self_test_passes_sample :
    ∃ s₀ n, initializeMultitasking zeroState 16 32 48 = .ok s₀ ∧
      (eagerRun s₀ n).printed = ["Multitasking tests passed!\n"] := by
  obtain ⟨s₀, hs₀, h⟩ := self_test_passes zeroState_boot (by decide) sampleBlocks
  obtain ⟨s, hs, hstart⟩ := start_inv zeroState_boot (by decide) sampleBlocks
  cases hs.symm.trans hs₀
  have heager : Eager (Test.start s₀ 16) := by
    refine ⟨⟨_, hstart⟩, ?_, fun y hy => .inl ?_⟩
    · rw [hstart.left_eq]
      have hsum : ∑ t ∈ (startPlan zeroState 16 32 48).alive,
          (((Test.start s₀ 16).rest t).map Stmt.weight).sum =
            (((Test.start s₀ 16).rest 16).map Stmt.weight).sum := by
        apply Finset.sum_eq_single_of_mem 16 hstart.root_works.1
        intro t _ ht
        have hnil : (Test.start s₀ 16).rest t = [] := by simp [Test.start, ht]
        rw [hnil]
        rfl
      rw [left, total, hsum]
      have hrest : (Test.start s₀ 16).rest 16 = multitaskingRunTest := by simp [Test.start]
      rw [hrest]
      decide
    · rw [hstart.used_iff] at hy
      have hal : ∀ y ∈ (startPlan zeroState 16 32 48).alive, y < 2 ^ 20 := by decide
      have hmutexes : ∀ y ∈ (startPlan zeroState 16 32 48).mutexes, y < 2 ^ 20 := by decide
      have hsemaphores : ∀ y ∈ (startPlan zeroState 16 32 48).semaphores, y < 2 ^ 20 := by decide
      rcases hy with hy | hy | hy
      · exact hal y hy
      · exact hmutexes y hy
      · exact hsemaphores y hy
  obtain ⟨n, -, hn⟩ := h _ _ rfl (eager_endless heager)
  exact ⟨s₀, n, hs₀, hn⟩

end Sample

end KallarOS.Tests
