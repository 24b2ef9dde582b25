import KallarOS.TestsInvariant

namespace KallarOS.Tests
open Function Sched Tokens

/-- The statements a statement stands for, those of the thread it creates included. -/
def Stmt.weight : Stmt → ℤ
  | createKernelThread task => task.program.length + 1
  | _ => 1

/-- The statements that are still to be done. -/
def left (x : Test) (a : Plan) : ℤ := total Stmt.weight a.alive x.rest

/-- The statement returns, everything stays in order, and there is less to do. -/
def Proceeds (root cleaner new : ℕ) (x : Test) (a : Plan) (o : Outcome Test) : Prop :=
  ∃ x' b, o = .ok x' ∧ Inv root cleaner x' b ∧ left x' b < left x a ∧ Plan.Within new a b

variable {root cleaner t new : ℕ} {x x' : Test} {a b : Plan} {v w : LockVar} {st : Stmt} {l : List Stmt}
  {e : Event} {task : Task}

section Moving

theorem Inv.current (h : Inv root cleaner x a) : x.state.currentThread = a.currentThread := h.rep.current_eq

theorem Inv.mutexes_eq (h : Inv root cleaner x a) : x.state.mutexes = a.mutexes :=
  congrArg Common.mutexes h.rep.common

theorem Inv.semaphores_eq (h : Inv root cleaner x a) : x.state.semaphores = a.semaphores :=
  congrArg Common.semaphores h.rep.common

/-- The current thread waits for no lock. -/
theorem Inv.free (h : Inv root cleaner x a) (k : Lock) : a.currentThread ∉ a.locks.waiters k :=
  h.resting.toPlaced.free k.place

theorem Inv.dead (h : Inv root cleaner x a) (ht : a.Dead t) : x.rest t = [] := by
  by_contra hne
  exact (h.works t hne).2.1 ht

theorem Inv.total_step (h : Inv root cleaner x a) (he : a.Allowed e)
    (hcreate : ∀ t, e ≠ .createKernelThread t) (f : Stmt → ℤ) {rest : ℕ → List Stmt}
    (hdead : ∀ t, a.Dead t → rest t = []) :
    total f (a.step e).alive rest = total f a.alive rest := by
  rcases h.resting.alive_cases he hcreate with hal | ⟨t, ht, hal⟩
  · rw [hal]
  · rw [hal, total_erase (hdead t ht)]

/-- The totals go down by the statement that is done. -/
theorem Inv.total_pop_step (h : Inv root cleaner x a) (he : a.Allowed e)
    (hcreate : ∀ t, e ≠ .createKernelThread t) (hrest : x.rest a.currentThread = st :: l) (f : Stmt → ℤ) :
    total f (a.step e).alive (update x.rest a.currentThread l) = total f a.alive x.rest - f st := by
  have hworks := h.works a.currentThread (by simp [hrest])
  rw [h.total_step he hcreate, total_pop hworks.1 hrest]
  intro t ht
  have hne : t ≠ a.currentThread := by
    rintro rfl
    exact hworks.2.1 ht
  rw [update_of_ne hne]
  exact h.dead ht

/-- Nobody who waits has moved on. -/
theorem Inv.waiting_rest (h : Inv root cleaner x a) (k : Lock) :
    ∀ t ∈ a.locks.waiters k, update x.rest a.currentThread l t = x.rest t :=
  fun _ ht => update_of_ne (ne_of_mem_of_not_mem ht (h.free k)) _ _

/-- Ticks and the calls of the cleaner. -/
theorem Inv.quiet (h : Inv root cleaner x a) (he : a.Allowed e) (hcreate : ∀ t, e ≠ .createKernelThread t)
    (hexit : e ≠ .threadExit) (hlocks : a.locks.step a.currentThread e = a.locks) :
    ∃ s', x.call e = .ok { x with state := s' } ∧ Inv root cleaner { x with state := s' } (a.step e) ∧
      left { x with state := s' } (a.step e) = left x a := by
  obtain ⟨s', hs', -⟩ := h.toSteady.exec (h.rep.allowed.mpr he)
  have hworks : ∀ u, a.Works u → (a.step e).Works u :=
    fun u hu => h.resting.works_step he hu fun hx => absurd hx hexit
  have hsame := (h.resting.locks_step e).trans hlocks
  have hsum : ∀ f, total f (a.step e).alive x.rest = total f a.alive x.rest :=
    fun f => h.total_step he hcreate f fun t => h.dead
  refine ⟨s', ?_, ⟨h.toRegular.step (h.rep.allowed.mpr he) hs', ?_, fun v hv => ?_, h.apart,
    fun v hv hfree => h.resting.has_step (h.known v hv hfree),
    fun k t ht => h.only k t (hsame ▸ ht)⟩, hsum _⟩
  · rw [Test.call]
    simp only [hs']
    rfl
  · exact ⟨hworks root h.root_works, hworks cleaner h.cleaner_works, h.cleaner_rest, h.root_rest,
      h.task_rest, fun u hu => hworks u (h.works u hu), h.early, h.report⟩
  · exact (h.account v hv).other (by rw [hsame]; exact ⟨rfl, rfl⟩) (hsum _) fun _ _ => rfl

end Moving

section Statements

/-- The current thread has done a statement that makes no lock and no thread. -/
theorem Inv.popped (h : Inv root cleaner x a) (hrest : x.rest a.currentThread = st :: l)
    (hst : ∀ v : LockVar, st ≠ v.create) (hnew : x'.rest = update x.rest a.currentThread l)
    (hglobal : x'.global = x.global) (hreg : Regular x'.state b)
    (hworks : ∀ u, a.Works u → (st = .threadExit → u ≠ a.currentThread) → b.Works u)
    (hreport : x'.printed ++ reports (x'.rest root) = x.printed ++ reports (x.rest root))
    (haccount : ∀ v, v.create ∉ x.rest root → Account root x a v → Account root x' b v)
    (hhas : ∀ v : LockVar, v.create ∉ x.rest root → .kfree v ∈ x'.rest root →
      a.Has (v.lock x.global) → b.Has (v.lock x.global))
    (honly : ∀ k, ∀ t ∈ b.locks.waiters k, t ∈ a.locks.waiters k ∨
      ∃ v : LockVar, v.create ∉ x.rest root ∧ k = v.lock x.global) : Inv root cleaner x' b := by
  have hsub : x'.rest root ⊆ x.rest root := by
    rw [hnew, update_apply]
    split_ifs with hroot
    · rw [hroot, hrest]
      exact List.subset_cons_self _ _
    · exact List.Subset.refl _
  have hcreated : ∀ v : LockVar, v.create ∉ x'.rest root → v.create ∉ x.rest root := by
    intro v hv
    rw [hnew, update_apply] at hv
    split_ifs at hv with hroot
    · rw [hroot, hrest, List.mem_cons, not_or]
      exact ⟨(hst v).symm, hv⟩
    · exact hv
  refine ⟨hreg, h.toThreads.pop hrest hnew hworks hreport,
    fun v hv => haccount v (hcreated v hv) (h.account v (hcreated v hv)), fun hv => ?_,
    fun v hv hfree => ?_, fun k t ht => ?_⟩
  · rw [hglobal]
    exact h.apart (hcreated _ hv)
  · rw [hglobal]
    exact hhas v (hcreated v hv) hfree (h.known v (hcreated v hv) (hsub hfree))
  · rw [hglobal]
    obtain ⟨v, hv, hk⟩ := (honly k t ht).elim (h.only k t) id
    exact ⟨v, fun hmem => hv (hsub hmem), hk⟩

/-- What the statements that call the scheduler have in common, the creation of threads
and locks apart. -/
theorem Inv.pop (h : Inv root cleaner x a) (hrest : x.rest a.currentThread = st :: l)
    (he : a.Allowed e) (hmakes : Plan.makes e = none) (hexit : e = .threadExit → st = .threadExit)
    (hst : ∀ v : LockVar, st ≠ v.create) (hprintf : reports (st :: l) = reports l) (hweight : st.weight = 1)
    (hacq : ∀ k, e.acquires = some k → ∃ v : LockVar, v.create ∉ x.rest root ∧ k = v.lock x.global)
    (haccount : ∀ s' v, v.create ∉ x.rest root → Account root x a v →
      Account root { x with state := s', rest := update x.rest a.currentThread l } (a.step e) v) :
    Proceeds root cleaner new x a (Test.call { x with rest := update x.rest a.currentThread l } e) := by
  obtain ⟨s', hs', -⟩ := h.toSteady.exec (h.rep.allowed.mpr he)
  have hreg := h.toRegular.step (h.rep.allowed.mpr he) hs'
  refine ⟨{ x with state := s', rest := update x.rest a.currentThread l }, a.step e, ?_,
    h.popped hrest hst rfl rfl hreg ?_ (congrArg (x.printed ++ ·) (reports_pop hrest hprintf)) (haccount s')
      (fun v _ _ => h.resting.has_step) fun k t ht => ?_, ?_, h.resting.within_step he (.inl hmakes)⟩
  · rw [Test.call]
    simp only [hs']
    rfl
  · intro u hu hut
    exact h.resting.works_step he hu fun hx => hut (hexit hx)
  · rw [h.resting.locks_step] at ht
    exact (Locks.mem_waiters_step ht).imp_right fun hk => hacq k hk.2
  · rw [left, h.total_pop_step he (Plan.ne_create hmakes) hrest, hweight, left]
    omega

/-- `thread_sleep` and `thread_exit` have nothing to do with locks. -/
theorem Inv.pop_aside (h : Inv root cleaner x a) (hrest : x.rest a.currentThread = st :: l)
    (he : a.Allowed e) (hmakes : Plan.makes e = none) (hexit : e = .threadExit → st = .threadExit)
    (hst : ∀ v : LockVar, st ≠ v.create) (hprintf : reports (st :: l) = reports l) (hweight : st.weight = 1)
    (howed : ∀ v, st.owed v = 0) (hacq : e.acquires = none)
    (hlocks : a.locks.step a.currentThread e = a.locks) :
    Proceeds root cleaner new x a (Test.call { x with rest := update x.rest a.currentThread l } e) := by
  have hcreate := Plan.ne_create hmakes
  apply h.pop hrest he hmakes hexit hst hprintf hweight (by simp [hacq])
  intro s' v _ hacc
  have hsame := (h.resting.locks_step e).trans hlocks
  have hsum := h.total_pop_step he hcreate hrest (Stmt.owed v)
  rw [howed, sub_zero] at hsum
  exact hacc.other (by rw [hsame]; exact ⟨rfl, rfl⟩) hsum (h.waiting_rest _)

theorem Inv.acquire (h : Inv root cleaner x a) (hrest : x.rest a.currentThread = .acquire v :: l) :
    Proceeds root cleaner new x a
      (Test.call { x with rest := update x.rest a.currentThread l } (v.lock x.global).acquire) := by
  have hworks := h.works a.currentThread (by simp [hrest])
  -- the lock is there, and the caller may wait for it
  have hcaller : v.create ∉ x.rest root ∧ .kfree v ∈ x.rest root ∧ v.Asks root a.currentThread l := by
    rcases h.statement hrest with ⟨hroot, hp⟩ | ⟨hroot, task, hp⟩
    · obtain ⟨hv, hcreate, hfree⟩ := root_acquire hp
      rw [← hroot, hrest, LockVar.Asks, if_pos hv]
      refine ⟨?_, List.mem_cons_of_mem _ (hfree v), rfl, hfree _⟩
      rw [List.mem_cons, not_or]
      exact ⟨by cases v <;> simp [LockVar.create], hcreate⟩
    · obtain ⟨hv, howed⟩ := task_acquire hp
      refine ⟨h.created hroot (by simp [hrest]) v, ?_, ?_⟩
      · exact h.unfreed hroot (by simp [hrest]) (by simp [hrest]) v
      · rw [LockVar.Asks, if_neg hv]
        exact ⟨hroot, howed⟩
  obtain ⟨hcreated, hfree, hasks⟩ := hcaller
  have he := Plan.allowed_acquire hworks.2.2 (h.known v hcreated hfree)
  have hmakes := Plan.makes_acquire (v.lock x.global)
  have hacq : (v.lock x.global).acquire.acquires = some (v.lock x.global) := by cases v <;> rfl
  refine h.pop hrest he hmakes (fun hx => absurd hx (Lock.acquire_ne_threadExit _))
    (fun w => by cases w <;> simp [LockVar.create]) rfl rfl
    (fun k hk => ⟨v, hcreated, Option.some.inj (hk.symm.trans hacq)⟩) fun s' w hw hacc => ?_
  have hsum := h.total_pop_step he (Plan.ne_create hmakes) hrest (Stmt.owed w)
  by_cases hvw : v = w
  · subst hvw
    have h0 : a.currentThread ≠ 0 := fun h0 => h.resting.nonnull (h0 ▸ h.resting.current)
    have hdue : (Stmt.acquire v).owed v = -1 := if_pos rfl
    rw [hdue, sub_neg_eq_add] at hsum
    have hcaller : v.Asks root a.currentThread (update x.rest a.currentThread l a.currentThread) := by
      rwa [update_self]
    exact hacc.acquire rfl h0 (h.resting.locks_step _) hsum (h.waiting_rest _) hcaller
  · have hdue : (Stmt.acquire v).owed w = 0 := if_neg hvw
    rw [hdue, sub_zero] at hsum
    apply hacc.other _ hsum (h.waiting_rest _)
    rw [h.resting.locks_step]
    exact Locks.bank_acquire_of_ne (h.lock_ne hw hcreated (Ne.symm hvw))

theorem Inv.release (h : Inv root cleaner x a) (hrest : x.rest a.currentThread = .release v :: l) :
    Proceeds root cleaner new x a
      (Test.call { x with rest := update x.rest a.currentThread l } (v.lock x.global).release) := by
  have hworks := h.works a.currentThread (by simp [hrest])
  have hroot : a.currentThread ≠ root := by
    rcases h.statement hrest with ⟨-, hp⟩ | ⟨hroot, -⟩
    · exact absurd (root_statement hp) id
    · exact hroot
  have hcreated := h.created hroot (by simp [hrest]) v
  have hfree := h.unfreed hroot (by simp [hrest]) (by simp [hrest]) v
  have he := Plan.allowed_release hworks.2.2 (h.known v hcreated hfree)
  have hmakes := Plan.makes_release (v.lock x.global)
  have hacq : (v.lock x.global).release.acquires = none := by cases v <;> rfl
  refine h.pop hrest he hmakes (fun hx => absurd hx (Lock.release_ne_threadExit _))
    (fun w => by cases w <;> simp [LockVar.create]) rfl rfl (by simp [hacq]) fun s' w hw hacc => ?_
  have hsum := h.total_pop_step he (Plan.ne_create hmakes) hrest (Stmt.owed w)
  by_cases hvw : v = w
  · subst hvw
    have h0 : 0 ∉ a.locks.waiters (v.lock x.global) :=
      fun h0 => h.resting.nonnull (h.resting.alive (v.lock x.global).place 0 h0)
    have hdue : (Stmt.release v).owed v = 1 := if_pos rfl
    rw [hdue] at hsum
    exact hacc.release rfl h0 (h.resting.locks_step _) hsum (h.total_pos hroot hrest) (h.waiting_rest _)
  · have hdue : (Stmt.release v).owed w = 0 := if_neg hvw
    rw [hdue, sub_zero] at hsum
    apply hacc.other _ hsum (h.waiting_rest _)
    rw [h.resting.locks_step]
    exact Locks.bank_release_of_ne (h.lock_ne hw hcreated (Ne.symm hvw))

/-- Nobody waits for a lock that the root thread is about to free. -/
theorem Inv.unwanted (h : Inv root cleaner x a) (hroot : a.currentThread = root)
    (hrest : x.rest root = .kfree v :: l) : a.locks.waiters (v.lock x.global) = [] := by
  have hpassed := h.freeing hrest
  have hacc := h.account v ((root_passed h.root_rest hpassed).2 v)
  apply List.eq_nil_iff_forall_not_mem.mpr
  intro t ht
  have hasks := hacc.asks t ht
  rw [LockVar.Asks] at hasks
  split_ifs at hasks
  · rw [hasks.1, ← hroot] at ht
    exact h.free _ ht
  · rcases h.passed hpassed (hroot ▸ h.free _) hasks.1 with h0 | h1
    · rw [h0] at hasks
      exact absurd hasks.2 (by cases v <;> decide)
    · rw [h1] at hasks
      exact absurd hasks.2 (by cases v <;> decide)

theorem Inv.kfree (h : Inv root cleaner x a) (hrest : x.rest a.currentThread = .kfree v :: l) :
    Proceeds root cleaner new x a
      (Test.exec { x with rest := update x.rest a.currentThread l } new (.kfree v)) := by
  have hworks := h.works a.currentThread (by simp [hrest])
  obtain ⟨hroot, hp⟩ := h.at_root hrest id
  have hrest' : x.rest root = .kfree v :: l := hroot ▸ hrest
  have hcreated := (root_passed h.root_rest (h.freeing hrest')).2
  have hhas := h.known v (hcreated v) (by simp [hrest'])
  obtain ⟨s', hs', hreg⟩ := h.toRegular.kfree hhas (h.unwanted hroot hrest')
  have hal : (a.kfree (v.lock x.global)).alive = a.alive := by cases v <;> rfl
  have hsum : ∀ f : Stmt → ℤ, total f (a.kfree (v.lock x.global)).alive
      (update x.rest a.currentThread l) = total f a.alive x.rest - f (.kfree v) := by
    intro f
    rw [hal, total_pop hworks.1 hrest]
  refine ⟨{ x with state := s', rest := update x.rest a.currentThread l }, _, ?_,
    h.popped hrest (fun w => by cases w <;> simp [LockVar.create]) rfl rfl hreg (fun u hu _ => ?_)
      (congrArg (x.printed ++ ·) (reports_pop hrest rfl)) (fun w _ hacc => ?_) (fun w hw hfree hhas => ?_)
      fun k t ht => .inl ?_, ?_, Plan.within_kfree _ _ _⟩
  · rw [Test.exec]
    simp only [hs']
    rfl
  · cases v <;> exact hu
  · apply hacc.other
    · rw [Plan.locks_kfree]
      exact ⟨rfl, rfl⟩
    · exact (hsum _).trans (sub_zero _)
    · exact h.waiting_rest _
  · have hvw : w ≠ v := by
      rintro rfl
      change .kfree w ∈ update x.rest a.currentThread l root at hfree
      rw [hroot, update_self] at hfree
      exact (root_kfree hp).1 hfree
    exact Plan.has_kfree hhas (h.lock_ne hw (hcreated v) hvw)
  · rwa [Plan.locks_kfree] at ht
  · rw [left, hsum, left]
    exact sub_one_lt _

theorem Inv.printf {text : String} (h : Inv root cleaner x a)
    (hrest : x.rest a.currentThread = .printf text :: l) :
    Proceeds root cleaner new x a
      (Test.exec { x with rest := update x.rest a.currentThread l } new (.printf text)) := by
  have hworks := h.works a.currentThread (by simp [hrest])
  obtain ⟨hroot, -⟩ := h.at_root hrest id
  have hsum : ∀ f : Stmt → ℤ, total f a.alive (update x.rest a.currentThread l) =
      total f a.alive x.rest - f (.printf text) := fun f => total_pop hworks.1 hrest
  refine ⟨{ x with rest := update x.rest a.currentThread l, printed := x.printed ++ [text] }, a, rfl,
    h.popped hrest (fun w => by cases w <;> simp [LockVar.create]) rfl rfl h.toRegular (fun u hu _ => hu) ?_
      (fun v _ hacc => ?_) (fun _ _ _ => id) (fun _ _ => .inl), ?_,
    ⟨Finset.subset_insert _ _, Finset.subset_insert _ _, Finset.subset_insert _ _⟩⟩
  · change (x.printed ++ [text]) ++ reports (update x.rest a.currentThread l root) = _
    rw [← hroot, update_self, hrest, List.append_assoc]
    rfl
  · exact hacc.other ⟨rfl, rfl⟩ ((hsum _).trans (sub_zero _)) (h.waiting_rest _)
  · change total Stmt.weight a.alive (update x.rest a.currentThread l) < _
    rw [hsum, left]
    exact sub_one_lt _

/-- A new thread takes over what its creation owed. -/
theorem Inv.spawn (h : Inv root cleaner x a)
    (hrest : x.rest a.currentThread = .createKernelThread task :: l) (hnew : Unused x.state new) :
    Proceeds root cleaner new x a
      (Test.exec { x with rest := update x.rest a.currentThread l } new (.createKernelThread task)) := by
  have hworks := h.works a.currentThread (by simp [hrest])
  obtain ⟨hroot, hp⟩ := h.at_root hrest id
  have hrest' : x.rest root = .createKernelThread task :: l := hroot ▸ hrest
  have hfresh : new ∉ a.alive := h.rep.alive_eq ▸ hnew.alive
  have hne : new ≠ root := (ne_of_mem_of_not_mem h.root_works.1 hfresh).symm
  have he : a.Allowed (.createKernelThread new) := ⟨fun _ => hworks.2.2, hnew.nonnull, hnew.lt, hfresh⟩
  obtain ⟨s', hs', -⟩ := h.toSteady.exec (h.rep.allowed.mpr he)
  have hreg := h.toRegular.step (h.rep.allowed.mpr he) hs'
  have hkeep : ∀ u, a.Works u → (a.step (.createKernelThread new)).Works u :=
    fun u hu => h.resting.works_step he hu (by simp)
  have hborn : (a.step (.createKernelThread new)).Works new := by
    refine ⟨Finset.mem_insert_self _ _, fun hd => ?_, (ne_of_mem_of_not_mem h.resting.idle hfresh).symm⟩
    rcases h.resting.dead_step he hd with (hd | hd) | ⟨hx, -⟩
    · exact hfresh (h.resting.alive _ new hd)
    · exact hfresh (h.resting.alive _ new hd)
    · cases hx
  let rest' := update (update x.rest a.currentThread l) new task.program
  have hspawned : rest' = update (update x.rest root l) new task.program := by rw [← hroot]
  have hl : rest' root = l := by
    rw [hspawned, update_of_ne hne.symm, update_self]
  have hsub : l ⊆ x.rest root := hrest' ▸ List.subset_cons_self _ _
  have hearly : ∀ v : LockVar, v.create ∉ l := root_spawn (hrest' ▸ h.root_rest)
  have hcreated : ∀ v : LockVar, v.create ∉ x.rest root := by
    intro v
    rw [hrest', List.mem_cons, not_or]
    exact ⟨by cases v <;> simp [LockVar.create], hearly v⟩
  have hsum : ∀ f : Stmt → ℤ, total f (insert new a.alive) rest' =
      total f a.alive x.rest - f (.createKernelThread task) + (task.program.map f).sum := by
    intro f
    rw [total_insert hfresh, total_pop hworks.1 hrest]
  refine ⟨{ x with state := s', rest := rest' }, a.step (.createKernelThread new), ?_, ⟨hreg,
    h.toThreads.spawn hrest' hfresh hspawned rfl hkeep hborn, fun v _ => ?_,
    fun _ => h.apart (hcreated _), fun v _ hv => ?_, fun k t ht => ?_⟩, ?_,
    h.resting.within_step he (.inr rfl)⟩
  · rw [Test.exec, Test.call]
    simp only [hs']
    rfl
  · apply (h.account v (hcreated v)).other
    · rw [h.resting.locks_step]
      exact ⟨rfl, rfl⟩
    · refine (hsum _).trans ?_
      rw [← owed_program v task, owed]
      exact sub_add_cancel _ _
    · intro u hu
      have hu' : u ∈ a.alive := h.resting.alive (v.lock x.global).place u hu
      exact (update_of_ne (ne_of_mem_of_not_mem hu' hfresh) _ _).trans (h.waiting_rest _ u hu)
  · change .kfree v ∈ rest' root at hv
    rw [hl] at hv
    exact h.resting.has_step (h.known v (hcreated v) (hsub hv))
  · rw [h.resting.locks_step] at ht
    obtain ⟨v, -, hk⟩ := h.only k t ht
    refine ⟨v, ?_, hk⟩
    change v.create ∉ rest' root
    rw [hl]
    exact hearly v
  · change total Stmt.weight (insert new a.alive) rest' < _
    have hprogram : (task.program.map Stmt.weight).sum = task.program.length := by cases task <;> rfl
    rw [hsum, hprogram, left, Stmt.weight]
    omega

/-- The call behind the creation of `v`. -/
def LockVar.making (new : ℕ) : LockVar → Event
  | .vgaMutex => .createMutex new
  | v => .createSemaphore new v.capacity

theorem making_ne_create (v : LockVar) (t : ℕ) : v.making new ≠ .createKernelThread t := by
  cases v <;> simp [LockVar.making]

theorem lock_update_of_ne {global : LockVar → ℕ} (hvw : w ≠ v) :
    w.lock (update global v new) = w.lock global := by
  cases v <;> cases w <;> simp_all [LockVar.lock]

/-- A new lock has all its tokens and nobody who waits. -/
theorem Inv.made (h : Inv root cleaner x a) (hnew : Unused x.state new) (global : LockVar → ℕ)
    (v : LockVar) :
    (a.step (v.making new)).locks.bank (v.lock (update global v new)) = ⟨0, []⟩ ∧
      (a.step (v.making new)).locks.capacity (v.lock (update global v new)) = v.capacity ∧
      (a.step (v.making new)).Has (v.lock (update global v new)) := by
  have hmutex : a.queue (.mutex new) = [] :=
    not_not.mp fun hq => hnew.mutexes (h.mutexes_eq ▸ h.resting.mutexes new hq)
  have hsem : a.queue (.semaphore new) = [] :=
    not_not.mp fun hq => hnew.semaphores (h.semaphores_eq ▸ h.resting.semaphores new hq)
  have hwaiters : ∀ k : Lock, a.locks.waiters k = a.queue k.place := fun _ => rfl
  rw [h.resting.locks_step]
  cases v with
  | vgaMutex =>
    refine ⟨?_, rfl, ?_⟩
    · simp [LockVar.making, LockVar.lock, Locks.step, Locks.bank, hwaiters, Lock.place, hmutex]
    · simp [LockVar.making, LockVar.lock, Plan.step, Plan.createMutex, Plan.Has]
  | bouncerSem =>
    refine ⟨?_, ?_, ?_⟩
    · simp [LockVar.making, LockVar.lock, Locks.step, Locks.bank, hwaiters, Lock.place, hsem]
    · simp [LockVar.making, LockVar.lock, Locks.step, Locks.capacity]
    · simp [LockVar.making, LockVar.lock, Plan.step, Plan.createSemaphore, Plan.Has]
  | testBarrierSem =>
    refine ⟨?_, ?_, ?_⟩
    · simp [LockVar.making, LockVar.lock, Locks.step, Locks.bank, hwaiters, Lock.place, hsem]
    · simp [LockVar.making, LockVar.lock, Locks.step, Locks.capacity]
    · simp [LockVar.making, LockVar.lock, Plan.step, Plan.createSemaphore, Plan.Has]

/-- A new lock is in a block of its own. -/
theorem Inv.making_other (h : Inv root cleaner x a) (hnew : Unused x.state new) {k : Lock} (hk : a.Has k)
    (v : LockVar) : (a.step (v.making new)).locks.bank k = a.locks.bank k ∧
      (a.step (v.making new)).locks.capacity k = a.locks.capacity k := by
  rw [h.resting.locks_step]
  apply Locks.bank_other
  · cases k <;> cases v <;> simp [LockVar.making, Lock.acquire]
  · cases k <;> cases v <;> simp [LockVar.making, Lock.release]
  · intro hc
    cases k with
    | mutex m =>
      cases v <;> simp only [LockVar.making, Lock.Created, Event.createMutex.injEq, reduceCtorEq] at hc
      exact hnew.mutexes (hc ▸ h.mutexes_eq ▸ hk)
    | semaphore m =>
      cases v <;> simp only [LockVar.making, Lock.Created, Event.createSemaphore.injEq, reduceCtorEq,
        exists_const, exists_eq_right'] at hc
      · exact hnew.semaphores (hc ▸ h.semaphores_eq ▸ hk)
      · exact hnew.semaphores (hc ▸ h.semaphores_eq ▸ hk)

theorem Inv.new_ne (h : Inv root cleaner x a) (hnew : Unused x.state new) (hw : w ≠ .vgaMutex)
    (hk : a.Has (w.lock x.global)) : new ≠ x.global w := by
  intro hn
  apply hnew.semaphores
  rw [h.semaphores_eq, hn]
  cases w with
  | vgaMutex => exact absurd rfl hw
  | bouncerSem => exact hk
  | testBarrierSem => exact hk

theorem Inv.allowed_making (h : Inv root cleaner x a) (hnew : Unused x.state new)
    (hworks : a.Works a.currentThread) (v : LockVar) : a.Allowed (v.making new) := by
  refine ⟨fun _ => hworks.2.2, ?_⟩
  cases v with
  | vgaMutex => exact fun hm => hnew.mutexes (h.mutexes_eq ▸ hm)
  | bouncerSem => exact ⟨fun hm => hnew.semaphores (h.semaphores_eq ▸ hm), by decide⟩
  | testBarrierSem => exact ⟨fun hm => hnew.semaphores (h.semaphores_eq ▸ hm), by decide⟩

/-- The books of a new lock; nobody but the root thread has anything to do yet. -/
theorem Inv.account_made (h : Inv root cleaner x a) (hnew : Unused x.state new) (hroot : a.currentThread = root)
    (hrest : x.rest root = v.create :: l) (s' : SchedState) :
    Account root ⟨s', update x.global v new, update x.rest a.currentThread l, x.printed⟩
      (a.step (v.making new)) v := by
  have he := h.allowed_making hnew (hroot ▸ h.root_works) v
  obtain ⟨hbank, hcap, -⟩ := h.made hnew x.global v
  apply Account.fresh hbank hcap
  have halone : total (Stmt.owed v) a.alive x.rest = owed v (x.rest root) := by
    apply Finset.sum_eq_single_of_mem root h.root_works.1
    intro u _ hu
    rw [h.early v (by simp [hrest]) u hu]
    rfl
  have hdue : v.create.owed v = 0 := by cases v <;> rfl
  have howed := (root_create (hrest ▸ h.root_rest)).1
  have htotal := h.total_pop_step he (making_ne_create v) (hroot ▸ hrest) (Stmt.owed v)
  rw [halone, hrest, owed_cons, hdue] at htotal
  change total (Stmt.owed v) _ (update x.rest a.currentThread l) + v.opening = 0
  omega

theorem exec_create {s' : SchedState} (hs : Sched.exec x.state (v.making new) = .ok s') :
    x.exec new v.create = .ok { x with state := s', global := update x.global v new } := by
  cases v with
  | vgaMutex =>
    have hmake : Sched.exec x.state (.createMutex new) = .ok s' := hs
    rw [LockVar.create, Test.exec, Test.call, hmake]
    rfl
  | bouncerSem =>
    have hmake : Sched.exec x.state (.createSemaphore new 2) = .ok s' := hs
    rw [LockVar.create, Test.exec, Test.call, hmake]
    rfl
  | testBarrierSem =>
    have hmake : Sched.exec x.state (.createSemaphore new 6) = .ok s' := hs
    rw [LockVar.create, Test.exec, Test.call, hmake]
    rfl

theorem Inv.create (h : Inv root cleaner x a) (hrest : x.rest a.currentThread = v.create :: l)
    (hnew : Unused x.state new) :
    Proceeds root cleaner new x a
      (Test.exec { x with rest := update x.rest a.currentThread l } new v.create) := by
  have hworks := h.works a.currentThread (by simp [hrest])
  obtain ⟨hroot, hp⟩ := h.at_root hrest (by cases v <;> exact id)
  have hrest' : x.rest root = v.create :: l := hroot ▸ hrest
  obtain ⟨-, hfree, hlast⟩ := root_create hp
  have he := h.allowed_making hnew hworks v
  obtain ⟨s', hs', -⟩ := h.toSteady.exec (h.rep.allowed.mpr he)
  have hreg := h.toRegular.step (h.rep.allowed.mpr he) hs'
  have hsum := h.total_pop_step he (making_ne_create v) hrest
  obtain ⟨-, -, hhas⟩ := h.made hnew x.global v
  let rest' := update x.rest a.currentThread l
  have hl : rest' root = l := by
    change update x.rest a.currentThread l root = l
    rw [hroot, update_self]
  have hold : ∀ w : LockVar, w ≠ v → w.create ∉ l → w.create ∉ x.rest root := by
    intro w hw hwl
    rw [hrest', List.mem_cons, not_or]
    exact ⟨by cases v <;> cases w <;> simp_all [LockVar.create], hwl⟩
  have hknown : ∀ w : LockVar, w ≠ v → w.create ∉ l → a.Has (w.lock x.global) := fun w hw hwl =>
    h.known w (hold w hw hwl) (by rw [hrest']; exact List.mem_cons_of_mem _ (hfree w))
  refine ⟨⟨s', update x.global v new, rest', x.printed⟩, a.step (v.making new), exec_create hs', ⟨hreg, ?_,
    fun w hw => ?_, fun hw => ?_, fun w hw _ => ?_, fun k t ht => ?_⟩, ?_,
    h.resting.within_step he (.inr (by cases v <;> rfl))⟩
  · apply h.toThreads.pop hrest rfl
    · intro u hu _
      exact h.resting.works_step he hu (by cases v <;> simp [LockVar.making])
    · change x.printed ++ reports (rest' root) = _
      rw [hl, hrest']
      cases v <;> rfl
  · change w.create ∉ rest' root at hw
    rw [hl] at hw
    by_cases hwv : w = v
    · subst hwv
      exact h.account_made hnew hroot hrest' s'
    · have hdue : v.create.owed w = 0 := by cases v <;> rfl
      have htotal := hsum (Stmt.owed w)
      rw [hdue, sub_zero] at htotal
      apply (h.account w (hold w hwv hw)).other
      · change (a.step _).locks.bank (w.lock (update x.global v new)) = _ ∧ _
        rw [lock_update_of_ne hwv]
        exact h.making_other hnew (hknown w hwv hw) v
      · exact htotal
      · exact h.waiting_rest _
  · change LockVar.testBarrierSem.create ∉ rest' root at hw
    rw [hl] at hw
    change update x.global v new .bouncerSem ≠ update x.global v new .testBarrierSem
    cases v with
    | vgaMutex => exact h.apart (hold _ (by simp) hw)
    | bouncerSem => exact h.new_ne hnew (by simp) (hknown .testBarrierSem (by simp) hw)
    | testBarrierSem => exact (h.new_ne hnew (by simp) (hknown .bouncerSem (by simp) (hlast rfl _))).symm
  · change w.create ∉ rest' root at hw
    rw [hl] at hw
    change (a.step _).Has (w.lock (update x.global v new))
    by_cases hwv : w = v
    · exact hwv ▸ hhas
    · rw [lock_update_of_ne hwv]
      exact h.resting.has_step (hknown w hwv hw)
  · rw [h.resting.locks_step] at ht
    have hold : t ∈ a.locks.waiters k :=
      (Locks.mem_waiters_step ht).resolve_right (by cases v <;> simp [LockVar.making, Event.acquires])
    obtain ⟨w, hw, hk⟩ := h.only k t hold
    have hwv : w ≠ v := by
      rintro rfl
      exact hw (by simp [hrest'])
    refine ⟨w, ?_, hk.trans (lock_update_of_ne hwv).symm⟩
    change w.create ∉ rest' root
    rw [hl]
    exact fun hmem => hw (by rw [hrest']; exact List.mem_cons_of_mem _ hmem)
  · have hweight : v.create.weight = 1 := by cases v <;> rfl
    have htotal := hsum Stmt.weight
    rw [hweight] at htotal
    exact htotal.trans_lt (sub_one_lt _)

/-- Whatever the current thread does next is allowed and keeps everything in order. -/
theorem Inv.next (h : Inv root cleaner x a) (hne : x.rest x.state.currentThread ≠ [])
    (hnew : Unused x.state new) : Proceeds root cleaner new x a (x.next new) := by
  obtain ⟨st, l, hrest⟩ := List.exists_cons_of_ne_nil hne
  rw [Test.next, hrest]
  rw [h.current] at hrest ⊢
  have hworks := h.works a.currentThread (by simp [hrest])
  have htask : ¬ st.OfTask → st.OfRoot := by
    rcases h.statement hrest with ⟨-, hp⟩ | ⟨-, task, hp⟩
    · exact fun _ => root_statement hp
    · exact fun hst => absurd (task_statement hp).1 hst
  have hroot : ¬ st.OfRoot → st.OfTask := by
    rcases h.statement hrest with ⟨-, hp⟩ | ⟨-, task, hp⟩
    · exact fun hst => absurd (root_statement hp) hst
    · exact fun _ => (task_statement hp).1
  cases st with
  | createMutex => exact Inv.create (v := .vgaMutex) h hrest hnew
  | createSemaphore v maxCount =>
    have hv : Stmt.createSemaphore v maxCount = v.create := htask id
    rw [hv] at hrest
    change Proceeds root cleaner new x a (Test.exec _ new (.createSemaphore v maxCount))
    rw [hv]
    exact h.create hrest hnew
  | createKernelThread task => exact h.spawn hrest hnew
  | acquire v => exact h.acquire hrest
  | release v => exact h.release hrest
  | threadSleep d =>
    have he : a.Allowed (.threadSleep d) := ⟨fun _ => hworks.2.2, hroot id⟩
    exact h.pop_aside hrest he rfl (by simp) (fun v => by cases v <;> simp [LockVar.create]) rfl rfl
      (fun _ => rfl) rfl rfl
  | threadExit =>
    have he : a.Allowed .threadExit := ⟨fun _ => hworks.2.2, trivial⟩
    exact h.pop_aside hrest he rfl (fun _ => rfl) (fun v => by cases v <;> simp [LockVar.create]) rfl rfl
      (fun _ => rfl) rfl rfl
  | kfree v => exact h.kfree hrest
  | printf text => exact h.printf hrest

end Statements

end KallarOS.Tests
