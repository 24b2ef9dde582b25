import KallarOS.SchedDispatch

namespace KallarOS.Sched
open Function

/-- The ticks after which the current thread gives the CPU away at the latest: what is
left of its slice, or of the idle thread's wait for the next boost. -/
def Common.pending (c : Common) : ℕ :=
  if c.currentThread = c.idleThread then 100 - c.counter
  else (c.tcb c.currentThread).remainingTime.toNat

namespace Plan

variable {a b c : Plan} {t x : ℕ} {p : Place} {f : Thread → Thread} {e : Event}

/-- Every thread but the idle one has at least a tick and at most the longest slice left. -/
def Supplied (a : Plan) : Prop :=
  ∀ t ∈ a.alive, t ≠ a.idleThread →
    1 ≤ (a.tcb t).remainingTime ∧ (a.tcb t).remainingTime ≤ thirdLimit

/-- The slices are supplied and the next boost is ahead. -/
structure Paced (a : Plan) : Prop where
  counter : a.counter < 100
  time : a.Supplied

/-- Threads have joined queues of `b`: the ready queues have grown at their ends, and
the current thread and its slice are those of `a`. -/
structure Joins (a b : Plan) : Prop where
  currentThread : b.currentThread = a.currentThread
  idleThread : b.idleThread = a.idleThread
  counter : b.counter = a.counter
  ready : ∀ i, a.queue (.ready i) <+: b.queue (.ready i)
  time : ∀ t ∈ a.alive, (b.tcb t).remainingTime = (a.tcb t).remainingTime
  alive : ∀ t ∈ b.alive, t ∈ a.alive ∨ (b.tcb t).remainingTime = firstLimit

section Pace

theorem Paced.pending_pos (h : a.Paced) (hcur : a.currentThread ∈ a.alive) : 0 < a.pending := by
  have hcounter := h.counter
  rw [Common.pending]
  split_ifs with hidle
  · omega
  · have := (h.time _ hcur hidle).1
    omega

theorem Paced.pending_le (h : a.Paced) (hcur : a.currentThread ∈ a.alive)
    (hidle : a.currentThread ≠ a.idleThread) : a.pending ≤ 30 := by
  have hle : _ ≤ (30 : ℤ) := (h.time _ hcur hidle).2
  rw [Common.pending, if_neg hidle]
  omega

theorem Paced.joins (h : a.Paced) (hj : Joins a b) : b.Paced := by
  refine ⟨hj.counter ▸ h.counter, fun t ht hidle => ?_⟩
  rcases hj.alive t ht with hold | hnew
  · rw [hj.time t hold]
    exact h.time t hold (hj.idleThread ▸ hidle)
  · rw [hnew]
    decide

theorem Paced.congr (h : a.Paced) (hc : b.counter = a.counter) (hal : b.alive = a.alive)
    (hid : b.idleThread = a.idleThread)
    (ht : ∀ t, (b.tcb t).remainingTime = (a.tcb t).remainingTime) : b.Paced := by
  refine ⟨hc ▸ h.counter, fun t hmem hidle => ?_⟩
  rw [ht]
  exact h.time t (hal ▸ hmem) (hid ▸ hidle)

theorem counter_reschedule (a : Plan) : a.reschedule.counter = a.counter := by rw [reschedule_eq]

theorem Paced.reschedule (h : a.Paced) : a.reschedule.Paced :=
  h.congr a.counter_reschedule (sameObjects_reschedule a).alive
    (sameObjects_reschedule a).idleThread fun t => (a.slice_reschedule t).2

theorem Paced.unlockScheduler (h : a.Paced) : a.unlockScheduler.Paced := ⟨h.counter, h.time⟩

/-- One thread gets another time inside the limits. -/
theorem Supplied.modify (h : a.Supplied)
    (hf : t ∈ a.alive → t ≠ a.idleThread →
      1 ≤ (f (a.tcb t)).remainingTime ∧ (f (a.tcb t)).remainingTime ≤ thirdLimit) :
    (a.modify t f).Supplied := by
  intro x hx hidle
  by_cases hxt : x = t
  · subst hxt
    rw [tcb_modify_self]
    exact hf hx hidle
  · rw [tcb_modify_of_ne hxt]
    exact h x hx hidle

end Pace

section Joining

theorem Joins.refl (a : Plan) : Joins a a :=
  ⟨rfl, rfl, rfl, fun _ => List.prefix_rfl, fun _ _ => rfl, fun _ ht => .inl ht⟩

theorem Joins.trans (h : Joins a b) (h' : Joins b c) (hal : b.alive = a.alive) : Joins a c where
  currentThread := h'.currentThread.trans h.currentThread
  idleThread := h'.idleThread.trans h.idleThread
  counter := h'.counter.trans h.counter
  ready i := (h.ready i).trans (h'.ready i)
  time t ht := (h'.time t (hal ▸ ht)).trans (h.time t ht)
  alive t ht := (h'.alive t ht).imp_left fun hb => hal ▸ hb

theorem Joins.mem (h : Joins a b) {i : ℕ} (ht : t ∈ a.queue (.ready i)) : t ∈ b.queue (.ready i) :=
  (h.ready i).subset ht

theorem prefix_push {p' : Place} : a.queue p' <+: (a.push p t).queue p' := by
  simp only [push, update_apply]
  split_ifs with h
  · rw [h]
    exact List.prefix_append _ _
  · exact List.prefix_rfl

/-- Threads join queues and nothing happens to the slices. -/
theorem joins_of_time (hcur : b.currentThread = a.currentThread)
    (hidle : b.idleThread = a.idleThread) (hcounter : b.counter = a.counter)
    (halive : b.alive = a.alive) (hq : ∀ i, a.queue (.ready i) <+: b.queue (.ready i))
    (ht : ∀ t, (b.tcb t).remainingTime = (a.tcb t).remainingTime) : Joins a b :=
  ⟨hcur, hidle, hcounter, hq, fun t _ => ht t, fun _ hmem => .inl (halive ▸ hmem)⟩

theorem time_modify (hf : ∀ th, (f th).remainingTime = th.remainingTime) :
    ((a.modify t f).tcb x).remainingTime = (a.tcb x).remainingTime := by
  by_cases hx : x = t
  · rw [hx, tcb_modify_self, hf]
  · rw [tcb_modify_of_ne hx]

theorem time_lockScheduler (a : Plan) (x : ℕ) :
    (a.lockScheduler.tcb x).remainingTime = (a.tcb x).remainingTime := by
  obtain ⟨e, he⟩ := a.tcb_lockScheduler x
  rw [he]

theorem time_enqueueThread {i : ℕ} :
    ((a.enqueueThread t i).tcb x).remainingTime = (a.tcb x).remainingTime := by
  rw [enqueueThread, tcb_push]
  exact time_modify fun _ => rfl

/-- A queued thread that becomes ready is the last of its level. -/
theorem prefix_makeReady {i j : ℕ} (hp : ∀ i, p ≠ .ready i) :
    a.queue (.ready j) <+: (((a.modify t f).remove p t).enqueueThread t i).queue (.ready j) := by
  refine List.IsPrefix.trans ?_ prefix_push
  change a.queue (.ready j) <+: ((a.modify t f).remove p t).queue (.ready j)
  rw [queue_remove_of_ne (hp j).symm]
  exact List.prefix_rfl

theorem joins_lockScheduler (a : Plan) : Joins a a.lockScheduler :=
  joins_of_time rfl rfl rfl rfl (fun _ => List.prefix_rfl) a.time_lockScheduler

theorem joins_parked (hf : ∀ th, (f th).remainingTime = th.remainingTime) :
    Joins a (a.parked p f) := by
  refine joins_of_time rfl rfl rfl rfl (fun _ => prefix_push) fun x => ?_
  rw [parked, tcb_push, time_modify hf, time_lockScheduler]

theorem joins_promote (hp : ∀ i, p ≠ .ready i) : Joins a (a.promote p t) := by
  refine joins_of_time rfl rfl rfl rfl (fun _ => prefix_makeReady hp) fun x => ?_
  rw [promote, time_enqueueThread, tcb_remove]
  exact time_modify fun _ => rfl

theorem joins_lift (hp : ∀ i, p ≠ .ready i) (hf : ∀ th, (f th).remainingTime = th.remainingTime) :
    Joins a (a.lift p t f) := by
  refine joins_of_time rfl rfl rfl rfl (fun _ => prefix_makeReady hp) fun x => ?_
  rw [lift, time_enqueueThread, tcb_remove, time_modify hf]

theorem joins_wakeSleepers (ts : List ℕ) (a : Plan) : Joins a (wakeSleepers ts a) := by
  induction ts generalizing a with
  | nil => exact .refl a
  | cons t ts ih =>
    rw [wakeSleepers]
    split_ifs
    · have hlift : Joins a (a.lift .sleeping t fun th => { th with state := .ready }) :=
        joins_lift (by simp) fun _ => rfl
      exact hlift.trans (ih _) rfl
    · exact ih a

end Joining

section Calls

/-- What an operation other than a tick does to who runs next: threads join queues, and
then the current thread may give the CPU away. -/
theorem Resting.step_joins (h : a.Resting) (he : a.Allowed e) (hne : e ≠ .tick) :
    Joins a (a.step e) ∨
      ∃ b : Plan, b.Yielding ∧ Joins a b ∧ a.step e = b.reschedule.unlockScheduler := by
  have hfits := he.fits
  have hbusy := he.busy hne
  have hlock := joins_lockScheduler a
  have hblock : ∀ {p : Place} {f : Thread → Thread}, a.Parks p f →
      (∀ th, (f th).remainingTime = th.remainingTime) →
      ∃ b : Plan, b.Yielding ∧ Joins a b ∧
        (a.blockOn p f).unlockScheduler = b.reschedule.unlockScheduler :=
    fun {p f} hp hf => ⟨a.parked p f, h.yielding_parked hp, joins_parked hf, rfl⟩
  cases e with
  | tick => exact absurd rfl hne
  | createKernelThread t =>
    have hold : ∀ {x}, x ∈ a.alive → x ≠ t := fun hx hxt => hfits.2.2 (hxt ▸ hx)
    refine .inl ⟨rfl, rfl, rfl, fun i => prefix_push, fun x hx => ?_, fun x hx => ?_⟩
    · rw [Plan.step, Plan.createKernelThread, tcb_enqueueThread_of_ne (hold hx)]
      simp only [update_of_ne (hold hx)]
    · rcases Finset.mem_insert.mp hx with rfl | hx
      · right
        rw [Plan.step, Plan.createKernelThread, tcb_enqueueThread_self]
        simp only [update_self, newThread]
      · exact .inl hx
  | createMutex m => exact .inl ⟨rfl, rfl, rfl, fun _ => List.prefix_rfl, fun _ _ => rfl, fun _ ht => .inl ht⟩
  | createSemaphore m maxCount => exact .inl ⟨rfl, rfl, rfl, fun _ => List.prefix_rfl, fun _ _ => rfl, fun _ ht => .inl ht⟩
  | threadSleep d =>
    rw [Plan.step, enterSleep_eq h.toUnlocked]
    exact .inr (hblock (parks_sleeping hbusy _) fun _ => rfl)
  | threadExit =>
    rw [Plan.step, enterExit_eq h.toUnlocked]
    exact .inr (hblock (parks_terminated hbusy) fun _ => rfl)
  | acquireMutex m =>
    rw [Plan.step, enterAcquireMutex_eq h.toUnlocked]
    split_ifs
    · exact .inl ⟨rfl, rfl, rfl, hlock.ready, hlock.time, hlock.alive⟩
    · exact .inr (hblock (parks_mutex hbusy hfits) fun _ => rfl)
  | acquireSemaphore m =>
    rw [Plan.step, enterAcquireSemaphore_eq h.toUnlocked]
    split_ifs
    · exact .inl ⟨rfl, rfl, rfl, hlock.ready, hlock.time, hlock.alive⟩
    · exact .inr (hblock (parks_semaphore hbusy hfits) fun _ => rfl)
  | releaseMutex m =>
    rw [Plan.step]
    cases hq : a.queue (.mutex m) with
    | nil =>
      rw [enterReleaseMutex_nil h.toUnlocked hq]
      exact .inl ⟨rfl, rfl, rfl, hlock.ready, hlock.time, hlock.alive⟩
    | cons t ts =>
      have hmem : t ∈ a.queue (.mutex m) := by simp [hq]
      have hj : Joins a (a.lockScheduler.promote (.mutex m) t) :=
        hlock.trans (joins_promote (by simp)) rfl
      rw [enterReleaseMutex_cons h.toUnlocked hq]
      refine .inr ⟨{ a.lockScheduler.promote (.mutex m) t with
        ownerThread := update a.ownerThread m t }, ((h.promoted hmem).withOwner _).yielding, ?_, rfl⟩
      exact ⟨hj.currentThread, hj.idleThread, hj.counter, hj.ready, hj.time, hj.alive⟩
  | releaseSemaphore m =>
    rw [Plan.step]
    cases hq : a.queue (.semaphore m) with
    | nil =>
      rw [enterReleaseSemaphore_nil h.toUnlocked hq]
      left
      split_ifs <;> exact ⟨rfl, rfl, rfl, hlock.ready, hlock.time, hlock.alive⟩
    | cons t ts =>
      have hmem : t ∈ a.queue (.semaphore m) := by simp [hq]
      rw [enterReleaseSemaphore_cons h.toUnlocked hq]
      exact .inr ⟨_, (h.promoted hmem).yielding, hlock.trans (joins_promote (by simp)) rfl, rfl⟩
  | detachTerminated =>
    refine .inl ⟨rfl, rfl, rfl, fun i => ?_, hlock.time, hlock.alive⟩
    simp [Plan.step, Plan.detachTerminated, Plan.lockScheduler]
  | reapThread =>
    refine .inl ⟨rfl, rfl, rfl, fun i => ?_, fun _ _ => rfl, fun t ht => ?_⟩
    · simp [Plan.step, Plan.reapThread, Plan.remove]
    · exact .inl (Finset.mem_of_mem_erase ht)

end Calls

section Ticks

/-- A tick after which the current thread goes on. -/
structure Stays (a b : Plan) : Prop where
  paced : b.Paced
  counter : b.counter = a.counter + 1
  ready : ∀ i, a.queue (.ready i) <+: b.queue (.ready i)
  pending : b.pending + 1 = a.pending

/-- A tick up to the `yield` at its end. A boost leaves all ready threads at the top. -/
structure Turns (a b : Plan) : Prop where
  paced : b.Paced
  top : a.queue (.ready 0) <+: b.queue (.ready 0)
  lower : (b.counter = a.counter + 1 ∧ ∀ i, a.queue (.ready i) <+: b.queue (.ready i)) ∨
    (a.counter = 99 ∧ ∀ i < 3, ∀ t ∈ a.queue (.ready i), t ∈ b.queue (.ready 0))

theorem Thread.time_demote (th : Thread) :
    1 ≤ th.demote.remainingTime ∧ th.demote.remainingTime ≤ thirdLimit :=
  ⟨(Thread.sliced_demote th).1, (Thread.sliced_demote th).2.trans (limit_le _)⟩

/-- Inside the limits the remaining time does not wrap. -/
theorem Thread.time_charge {th : Thread} (h1 : 1 ≤ th.remainingTime)
    (h2 : th.remainingTime ≤ thirdLimit) : th.charge.remainingTime = th.remainingTime - 1 := by
  have h2 : th.remainingTime ≤ 30 := h2
  rw [Thread.charge]
  simp only [Int.bmod]
  split_ifs <;> omega

theorem prefix_lift {i j : ℕ} (hi : i ≠ j) :
    a.queue (.ready j) <+: (a.lift (.ready i) t f).queue (.ready j) := by
  refine List.IsPrefix.trans ?_ prefix_push
  change a.queue (.ready j) <+: ((a.modify t f).remove (.ready i) t).queue (.ready j)
  rw [queue_remove_of_ne (by simpa using hi.symm)]
  exact List.prefix_rfl

theorem prefix_drainQueue {ts : List ℕ} {i j : ℕ} (hi : i ≠ j) :
    a.queue (.ready j) <+: (drainQueue i ts a).queue (.ready j) := by
  induction ts generalizing a with
  | nil => exact List.prefix_rfl
  | cons t ts ih => exact (prefix_lift hi).trans ih

theorem mem_drainQueue {ts : List ℕ} {i : ℕ} (hi : i ≠ 0) (ht : t ∈ ts) :
    t ∈ (drainQueue i ts a).queue (.ready 0) := by
  induction ts generalizing a with
  | nil => simp at ht
  | cons x ts ih =>
    rw [drainQueue]
    rcases List.mem_cons.mp ht with rfl | ht
    · have hmem : t ∈ (a.lift (.ready i) t fun th => { th with remainingTime := firstLimit }).queue
          (.ready 0) := mem_enqueueThread.mpr (.inr ⟨rfl, rfl⟩)
      exact (prefix_drainQueue hi).subset hmem
    · exact ih ht

/-- After a boost every thread that was ready is ready at the top. -/
theorem mem_resetQueues {i : ℕ} (hi : i < 3) (ht : t ∈ a.queue (.ready i)) :
    t ∈ a.resetQueues.queue (.ready 0) := by
  change t ∈ (drainQueue 2 ((a.resetQueue 1).queue (.ready 2)) (a.resetQueue 1)).queue (.ready 0)
  obtain rfl | rfl | rfl : i = 0 ∨ i = 1 ∨ i = 2 := by omega
  · exact (prefix_drainQueue (by omega)).subset ((prefix_drainQueue (by omega)).subset ht)
  · exact (prefix_drainQueue (by omega)).subset (mem_drainQueue (by omega) ht)
  · exact mem_drainQueue (by omega) ((prefix_drainQueue (by omega)).subset ht)

theorem prefix_resetQueues (a : Plan) : a.queue (.ready 0) <+: a.resetQueues.queue (.ready 0) :=
  (prefix_drainQueue (i := 1) (by omega)).trans (prefix_drainQueue (i := 2) (by omega))

theorem Supplied.restart (h : a.Supplied) {f : Thread → Thread}
    (hf : ∀ th, (f th).remainingTime = firstLimit) : (a.modify t f).Supplied :=
  h.modify fun _ _ => by
    rw [hf]
    decide

theorem Supplied.lift (h : a.Supplied) :
    (a.lift p t fun th => { th with remainingTime := firstLimit }).Supplied := by
  intro x hx hidle
  rw [Plan.lift, time_enqueueThread, tcb_remove]
  exact h.restart (f := fun th => { th with remainingTime := firstLimit }) (fun _ => rfl) x hx hidle

theorem Supplied.drainQueue (h : a.Supplied) (i : ℕ) (ts : List ℕ) : (drainQueue i ts a).Supplied := by
  induction ts generalizing a with
  | nil => exact h
  | cons t ts ih => exact ih h.lift

theorem Supplied.resetQueues (h : a.Supplied) : a.resetQueues.Paced :=
  ⟨by simp [Plan.resetQueues], (h.drainQueue 1 _).drainQueue 2 _⟩

theorem Supplied.chargeCurrent (h : a.Supplied) : a.chargeCurrent.2.Supplied := by
  rw [Plan.chargeCurrent]
  split_ifs with hend
  · intro x hx hidle
    by_cases hxc : x = a.currentThread
    · rw [hxc, tcb_modify_self]
      exact Thread.time_demote _
    · rw [tcb_modify_of_ne hxc, tcb_modify_of_ne hxc]
      exact h x hx hidle
  · refine h.modify fun hal hidle => ?_
    obtain ⟨h1, h2⟩ := h _ hal hidle
    rw [tcb_modify_self] at hend
    have hcharge := Thread.time_charge h1 h2
    exact ⟨by omega, by omega⟩

theorem Paced.boostCurrent (h : a.Paced) : a.boostCurrent.Paced := by
  rw [Plan.boostCurrent]
  split_ifs
  · exact ⟨h.counter, h.time.restart fun _ => rfl⟩
  · exact h

/-- While the current thread is not sent away, its slice shrinks by one. -/
theorem Paced.time_chargeCurrent (h : a.Paced) (hcur : a.currentThread ∈ a.alive)
    (hidle : a.currentThread ≠ a.idleThread) (hstay : ¬ a.chargeCurrent.1 = true) :
    (a.chargeCurrent.2.tcb a.currentThread).remainingTime =
      (a.tcb a.currentThread).remainingTime - 1 := by
  obtain ⟨h1, h2⟩ := h.time _ hcur hidle
  rw [Plan.chargeCurrent] at hstay ⊢
  split_ifs at hstay ⊢
  · exact absurd rfl hstay
  · rw [tcb_modify_self]
    exact Thread.time_charge h1 h2

theorem counter_chargeCurrent (a : Plan) : a.chargeCurrent.2.counter = a.counter := by
  rw [chargeCurrent]
  split_ifs <;> rfl

theorem inc8_of_lt_limit {k : ℕ} (h : k < 100) : inc8 k = k + 1 := Nat.mod_eq_of_lt (by omega)

/-- The tick of the idle thread counts up to the next boost. -/
theorem Paced.idleTick (h : a.Paced) (hidle : a.currentThread = a.idleThread) :
    (¬ a.idleTick.1 = true → Stays a a.idleTick.2) ∧ Turns a a.idleTick.2 := by
  have hlt := h.counter
  have hcounter : a.countTick.counter = a.counter + 1 := inc8_of_lt_limit hlt
  rw [Plan.idleTick]
  split_ifs with hc
  · have hsupplied : a.countTick.Supplied := h.time
    refine ⟨fun hs => absurd rfl hs, hsupplied.resetQueues, a.countTick.prefix_resetQueues,
      .inr ⟨by omega, fun i hi t ht => ?_⟩⟩
    exact mem_resetQueues (a := a.countTick) hi ht
  · have hpaced : a.countTick.Paced := ⟨by omega, h.time⟩
    refine ⟨fun _ => ⟨hpaced, hcounter, fun _ => List.prefix_rfl, ?_⟩, hpaced, List.prefix_rfl,
      .inl ⟨hcounter, fun _ => List.prefix_rfl⟩⟩
    have hidle' : a.countTick.currentThread = a.countTick.idleThread := hidle
    rw [Common.pending, Common.pending, if_pos hidle, if_pos hidle', hcounter]
    omega

/-- The tick of a busy thread takes one from its slice. -/
theorem Paced.busyTick (h : a.Paced) (hcur : a.currentThread ∈ a.alive)
    (hidle : a.currentThread ≠ a.idleThread) :
    (¬ a.busyTick.1 = true → Stays a a.busyTick.2) ∧ Turns a a.busyTick.2 := by
  have hlt := h.counter
  rw [Plan.busyTick]
  set b : Plan := a.chargeCurrent.2.countTick with hb
  have hframe := tickFrame_chargeCurrent a
  have hcounter : b.counter = a.counter + 1 := by
    change inc8 a.chargeCurrent.2.counter = _
    rw [counter_chargeCurrent, inc8_of_lt_limit hlt]
  have hqueue : b.queue = a.queue := queue_chargeCurrent a
  have hsupplied : b.Supplied := h.time.chargeCurrent
  split_ifs with hc
  · have hpaced := hsupplied.resetQueues.boostCurrent
    refine ⟨fun hs => absurd rfl hs, hpaced, ?_, .inr ⟨by omega, fun i hi t ht => ?_⟩⟩
    · rw [queue_boostCurrent, ← hqueue]
      exact b.prefix_resetQueues
    · rw [queue_boostCurrent]
      exact mem_resetQueues hi (hqueue ▸ ht)
  · have hpaced : b.Paced := ⟨by omega, hsupplied⟩
    have hready : ∀ i, a.queue (.ready i) <+: b.queue (.ready i) := fun i => by rw [hqueue]
    refine ⟨fun hstay => ⟨hpaced, hcounter, hready, ?_⟩, hpaced, hready 0, .inl ⟨hcounter, hready⟩⟩
    have htime := h.time_chargeCurrent hcur hidle hstay
    have hpos := (h.time _ hcur hidle).1
    have hcur' : b.currentThread = a.currentThread := by rw [hb, countTick, hframe]
    have hidle' : b.idleThread = a.idleThread := by rw [hb, countTick, hframe]
    change (b.tcb a.currentThread).remainingTime = _ at htime
    rw [Common.pending, Common.pending, if_neg hidle, hcur', hidle', if_neg hidle, htime]
    omega

theorem Joins.pending (h : Joins a b) (hcur : a.currentThread ∈ a.alive) : b.pending = a.pending := by
  rw [Common.pending, Common.pending, h.currentThread, h.idleThread, h.counter, h.time _ hcur]

theorem Joins.stays (h : Joins a b) (hcur : a.currentThread ∈ a.alive) (hs : Stays b c) :
    Stays a c where
  paced := hs.paced
  counter := h.counter ▸ hs.counter
  ready i := (h.ready i).trans (hs.ready i)
  pending := h.pending hcur ▸ hs.pending

theorem Joins.turns (h : Joins a b) (ht : Turns b c) : Turns a c where
  paced := ht.paced
  top := (h.ready 0).trans ht.top
  lower := ht.lower.imp
    (fun ⟨hc, hr⟩ => ⟨h.counter ▸ hc, fun i => (h.ready i).trans (hr i)⟩)
    fun ⟨hc, hr⟩ => ⟨h.counter ▸ hc, fun i hi t hmem => hr i hi t (h.mem hmem)⟩

theorem Turns.joins (h : Turns a b) (hj : Joins b c) : Turns a c where
  paced := h.paced.joins hj
  top := h.top.trans (hj.ready 0)
  lower := h.lower.imp
    (fun ⟨hc, hr⟩ => ⟨hj.counter.trans hc, fun i => (hr i).trans (hj.ready i)⟩)
    fun ⟨hc, hr⟩ => ⟨hc, fun i hi t hmem => hj.mem (hr i hi t hmem)⟩

/-- A tick leaves the current thread running or ends with a `yield`. -/
theorem Resting.tick_cases (h : a.Resting) (hp : a.Paced) :
    Stays a (a.step .tick) ∨
      ∃ b : Plan, b.Yielding ∧ Turns a b ∧ a.step .tick = b.reschedule.unlockScheduler := by
  set b : Plan := { a with systemTicks := (a.systemTicks + 1) % 2 ^ 64 }
  have hrest : b.Resting := h.countSystemTick
  have hjoin : Joins a b := joins_of_time rfl rfl rfl rfl (fun _ => List.prefix_rfl) fun _ => rfl
  set w : Plan := Plan.wakeSleepers (b.queue .sleeping) b
  have hw : Joins a w := hjoin.trans (joins_wakeSleepers _ _) rfl
  have hplaced : w.Placed := hrest.toPlaced.wakeSleepers (hrest.nodup .sleeping) fun _ ht => ht
  have hbody : (¬ b.tickBody.1 = true → Stays a b.tickBody.2) ∧ Turns a b.tickBody.2 := by
    have hpaced := hp.joins hw
    rw [Plan.tickBody]
    split_ifs with hidle
    · obtain ⟨hstay, hturn⟩ := hpaced.idleTick hidle
      exact ⟨fun hs => hw.stays h.current (hstay hs), hw.turns hturn⟩
    · obtain ⟨hstay, hturn⟩ := hpaced.busyTick hplaced.current hidle
      exact ⟨fun hs => hw.stays h.current (hstay hs), hw.turns hturn⟩
  change Stays a b.schedulerOnTick ∨ ∃ c : Plan, _ ∧ _ ∧ b.schedulerOnTick = _
  rw [schedulerOnTick_eq hrest.toUnlocked]
  split_ifs with hyield
  · exact .inr ⟨_, hrest.tickBody.lockScheduler.yielding,
      hbody.2.joins (joins_lockScheduler _), rfl⟩
  · exact .inl (hbody.1 hyield)

end Ticks

section Turns

theorem prefix_requeued (a : Plan) (p : Place) : a.queue p <+: requeued a.toCommon a.queue p := by
  rw [requeued]
  split_ifs
  · rw [update_apply]
    split_ifs with hp
    · rw [hp]
      exact List.prefix_append _ _
    · exact List.prefix_rfl
  · exact List.prefix_rfl

/-- A queued thread is taken by the `yield` or stays in its queue. -/
theorem Yielding.mem_reschedule (h : a.Yielding) (ht : t ∈ a.queue p) :
    a.reschedule.currentThread = t ∨ t ∈ a.reschedule.queue p := by
  have hmem := (a.prefix_requeued p).subset ht
  rcases h.reschedule_cases with ⟨-, -, hqueue⟩ | ⟨i, -, x, xs, hq, -, hcur, -, -, hqueue⟩
  · exact .inr (hqueue ▸ hmem)
  · rw [hqueue, update_apply]
    split_ifs with hp
    · rw [hp, hq] at hmem
      rcases List.mem_cons.mp hmem with rfl | hmem
      · exact .inl hcur
      · exact .inr hmem
    · exact .inr hmem

/-- A thread of the top level is taken, or moves up one place behind another of them. -/
theorem Yielding.reschedule_top (h : a.Yielding) (ht : t ∈ a.queue (.ready 0)) :
    a.reschedule.currentThread = t ∨
      (t ∈ a.reschedule.queue (.ready 0) ∧
        (a.reschedule.queue (.ready 0)).idxOf t + 1 = (a.queue (.ready 0)).idxOf t ∧
        a.reschedule.currentThread ≠ a.reschedule.idleThread) := by
  have hprefix := a.prefix_requeued (.ready 0)
  have hmem := hprefix.subset ht
  obtain ⟨hhead, -⟩ := h.reschedule_head (i := 0) (by omega) (List.ne_nil_of_mem hmem) (by omega)
  by_cases hcur : a.reschedule.currentThread = t
  · exact .inl hcur
  · have hidx : (a.queue (.ready 0)).idxOf t =
        (requeued a.toCommon a.queue (.ready 0)).idxOf t := by
      obtain ⟨ys, hys⟩ := hprefix
      rw [← hys, List.idxOf_append_of_mem ht]
    rw [hhead] at hmem hidx
    rw [List.idxOf_cons_ne _ hcur] at hidx
    have hmem' := (List.mem_cons.mp hmem).resolve_left (Ne.symm hcur)
    refine .inr ⟨hmem', hidx.symm, ?_⟩
    rw [(sameObjects_reschedule a).idleThread]
    exact (h.reschedule_best (by omega) (List.ne_nil_of_mem hmem')).1

end Turns

end Plan

end KallarOS.Sched
