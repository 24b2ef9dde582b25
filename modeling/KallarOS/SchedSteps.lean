import KallarOS.SchedPlacement

namespace KallarOS.Sched
open Function

namespace Plan

variable {a b : Plan} {t m d : ℕ} {p : Place} {f : Thread → Thread}

section Locks

/-- The scheduler lock is held once and no atomic section is open. -/
structure Locked (a : Plan) : Prop where
  irq : a.irqDisableCounter = 1
  postpone : a.postponeSwitchesCounter = 0
  flag : a.postponedYieldFlag = 0

theorem Unlocked.lockScheduler (h : a.Unlocked) : a.lockScheduler.Locked :=
  ⟨by simp only [Plan.lockScheduler, h.irq]; rfl, h.postpone, h.flag⟩

theorem Locked.unlockScheduler (h : a.Locked) : a.unlockScheduler.Unlocked :=
  ⟨by simp only [Plan.unlockScheduler, h.irq]; rfl, h.postpone, h.flag⟩

theorem Locked.reschedule (h : a.Locked) : a.reschedule.Locked := by
  rw [reschedule_eq]
  exact ⟨h.irq, h.postpone, h.flag⟩

theorem Locked.blockOn (h : a.Unlocked) : (a.blockOn p f).Locked :=
  Locked.reschedule ⟨h.lockScheduler.irq, h.postpone, h.flag⟩

/-- The lock saves EFLAGS and touches nothing else of a control block. -/
theorem tcb_lockScheduler (t : ℕ) :
    ∃ e, a.lockScheduler.tcb t = { a.tcb t with savedInterruptState := e } := by
  simp only [Plan.lockScheduler]
  split_ifs with h0
  · by_cases ht : t = a.currentThread
    · exact ⟨a.eflags, by rw [ht, update_self]⟩
    · exact ⟨_, by rw [update_of_ne ht]⟩
  · exact ⟨_, rfl⟩

theorem Placed.lockScheduler (h : a.Placed) : a.lockScheduler.Placed := by
  refine h.congr rfl rfl rfl rfl rfl rfl fun t => ?_
  obtain ⟨e, he⟩ := a.tcb_lockScheduler t
  exact ⟨by rw [he], by rw [he]⟩

@[simp] theorem tcb_unlockScheduler (a : Plan) : a.unlockScheduler.tcb = a.tcb := rfl

@[simp] theorem queue_unlockScheduler (a : Plan) : a.unlockScheduler.queue = a.queue := rfl

@[simp] theorem currentThread_unlockScheduler (a : Plan) :
    a.unlockScheduler.currentThread = a.currentThread := rfl

theorem Placed.unlockScheduler (h : a.Placed) : a.unlockScheduler.Placed :=
  h.congr rfl rfl rfl rfl rfl rfl fun _ => ⟨rfl, rfl⟩

end Locks

section Objects

/-- The same threads, mutexes and semaphores, with the same owners and counts. -/
structure SameObjects (a b : Plan) : Prop where
  alive : b.alive = a.alive
  idleThread : b.idleThread = a.idleThread
  mutexes : b.mutexes = a.mutexes
  ownerThread : b.ownerThread = a.ownerThread
  semaphores : b.semaphores = a.semaphores
  maxCount : b.maxCount = a.maxCount
  currentCount : b.currentCount = a.currentCount

theorem SameObjects.trans {c : Plan} (h : SameObjects a b) (h' : SameObjects b c) :
    SameObjects a c :=
  ⟨h'.alive.trans h.alive, h'.idleThread.trans h.idleThread, h'.mutexes.trans h.mutexes,
    h'.ownerThread.trans h.ownerThread, h'.semaphores.trans h.semaphores,
    h'.maxCount.trans h.maxCount, h'.currentCount.trans h.currentCount⟩

theorem sameObjects_lockScheduler (a : Plan) : SameObjects a a.lockScheduler :=
  ⟨rfl, rfl, rfl, rfl, rfl, rfl, rfl⟩

theorem sameObjects_unlockScheduler (a : Plan) : SameObjects a a.unlockScheduler :=
  ⟨rfl, rfl, rfl, rfl, rfl, rfl, rfl⟩

theorem sameObjects_reschedule (a : Plan) : SameObjects a a.reschedule := by
  rw [reschedule_eq]
  exact ⟨rfl, rfl, rfl, rfl, rfl, rfl, rfl⟩

theorem sameObjects_blockOn (a : Plan) (p : Place) (f : Thread → Thread) :
    SameObjects a (a.blockOn p f) := by
  have hpark : SameObjects a ((a.lockScheduler.modify a.currentThread f).push p a.currentThread) :=
    ⟨rfl, rfl, rfl, rfl, rfl, rfl, rfl⟩
  exact hpark.trans (sameObjects_reschedule _)

end Objects

section Moves

/-- The current thread may change its state and its level. -/
theorem Placed.modifyCurrent (h : a.Placed) (hf : (f (a.tcb a.currentThread)).priority < 3) :
    (a.modify a.currentThread f).Settled where
  toBase := h.toBase.modify h.free hf
  current := h.current
  idle := h.idle
  waits := h.waits
  calm hr := by
    by_contra hne
    refine hne (h.calm ?_)
    have hne' : a.idleThread ≠ a.currentThread := hne
    rwa [← tcb_modify_of_ne (f := f) hne']

theorem Placed.adjustCurrent (h : a.Placed) (hf : (f (a.tcb a.currentThread)).priority < 3)
    (hs : (f (a.tcb a.currentThread)).state = .running) : (a.modify a.currentThread f).Placed where
  toSettled := h.modifyCurrent hf
  running := by
    change ((a.modify a.currentThread f).tcb a.currentThread).state = _
    rwa [tcb_modify_self]

/-- The current thread may be put into queue `p` in the state `f` gives it. -/
structure Parks (a : Plan) (p : Place) (f : Thread → Thread) : Prop where
  busy : a.currentThread ≠ a.idleThread
  state : ∀ th, (f th).state = p.state
  level : ∀ th, (f th).priority = th.priority
  waiting : ∀ i, p ≠ .ready i
  mutexes : ∀ m, p = .mutex m → m ∈ a.mutexes
  semaphores : ∀ m, p = .semaphore m → m ∈ a.semaphores

/-- `blockOn` before it gives the CPU away. -/
def parked (a : Plan) (p : Place) (f : Thread → Thread) : Plan :=
  (a.lockScheduler.modify a.currentThread f).push p a.currentThread

theorem Placed.parked (h : a.Placed) (hp : a.Parks p f) : (a.parked p f).Settled := by
  have hlock := h.lockScheduler
  have hmod : (a.lockScheduler.modify a.currentThread f).Settled :=
    hlock.modifyCurrent (by rw [hp.level]; exact hlock.levels _ h.current)
  have hsuits : (a.lockScheduler.modify a.currentThread f).Suits a.currentThread p :=
    ⟨h.current, h.free, hp.busy, by rw [tcb_modify_self, hp.state],
      fun i hi => absurd hi (hp.waiting i), hp.mutexes, hp.semaphores⟩
  exact {
    toBase := hmod.toBase.push hsuits
    current := h.current
    idle := h.idle
    waits := fun t ht hne hcur => by
      obtain ⟨p', hp'⟩ := hmod.waits t ht hne hcur
      exact ⟨p', mem_push.mpr (.inl hp')⟩
    calm := hmod.calm }

theorem mem_parked : a.currentThread ∈ (a.parked p f).queue p := mem_push.mpr (.inr ⟨rfl, rfl⟩)

/-- The current thread puts itself into a queue and another one runs. -/
theorem Placed.blockOn (h : a.Placed) (h0 : 0 ∉ a.alive) (hp : a.Parks p f) :
    (a.blockOn p f).Placed :=
  (h.parked hp).reschedule h0 fun _ => ⟨p, mem_parked⟩

/-- A queued thread becomes ready. -/
theorem Placed.makeReady {i : ℕ} (h : a.Placed) (ht : t ∈ a.queue p)
    (hs : (f (a.tcb t)).state = .ready) (hf : (f (a.tcb t)).priority < 3) (hi : i < 3) :
    (((a.modify t f).remove p t).enqueueThread t i).Placed := by
  have hcur : a.currentThread ≠ t := fun he => h.free p (he ▸ ht)
  have hidle : a.idleThread ≠ t := fun he => h.idle_free p (he ▸ ht)
  have htcb : ∀ x, x ≠ t → (((a.modify t f).remove p t).enqueueThread t i).tcb x = a.tcb x := by
    intro x hx
    rw [tcb_enqueueThread_of_ne hx, tcb_remove, tcb_modify_of_ne hx]
  refine ⟨⟨h.toBase.requeue ht hs hf hi, h.current, h.idle, fun x hx hne hxc => ?_, ?_⟩, ?_⟩
  · by_cases hxt : x = t
    · exact ⟨.ready i, mem_enqueueThread.mpr (.inr ⟨hxt, rfl⟩)⟩
    · obtain ⟨p', hp'⟩ := h.waits x hx hne hxc
      refine ⟨p', mem_enqueueThread.mpr (.inl ?_)⟩
      simp only [Plan.remove, update_apply]
      split_ifs with hpp
      · exact (List.mem_erase_of_ne hxt).mpr (hpp ▸ hp')
      · exact hp'
  · change ((enqueueThread _ t i).tcb a.idleThread).state = _ → _
    rw [htcb _ hidle]
    exact h.calm
  · change ((enqueueThread _ t i).tcb a.currentThread).state = _
    rw [htcb _ hcur]
    exact h.running

theorem Placed.promote (h : a.Placed) (ht : t ∈ a.queue p) : (a.promote p t).Placed :=
  h.makeReady ht rfl (h.levels t (h.alive p t ht)) (h.levels t (h.alive p t ht))

theorem Placed.lift (h : a.Placed) (ht : t ∈ a.queue p) (hs : (f (a.tcb t)).state = .ready)
    (hf : (f (a.tcb t)).priority = (a.tcb t).priority) : (a.lift p t f).Placed :=
  h.makeReady ht hs (by rw [hf]; exact h.levels t (h.alive p t ht)) (by omega)

end Moves

section Ticks

theorem mem_lift {x : ℕ} (hx : x ∈ a.queue p) (hne : x ≠ t) : x ∈ (a.lift p t f).queue p := by
  refine mem_enqueueThread.mpr (.inl ?_)
  change x ∈ update a.queue p ((a.queue p).erase t) p
  rw [update_self]
  exact (List.mem_erase_of_ne hne).mpr hx

theorem Placed.wakeSleepers {ts : List ℕ} (h : a.Placed) (hts : ts.Nodup)
    (hq : ∀ t ∈ ts, t ∈ a.queue .sleeping) : (wakeSleepers ts a).Placed := by
  induction ts generalizing a with
  | nil => exact h
  | cons t ts ih =>
    obtain ⟨ht, hts⟩ := List.nodup_cons.mp hts
    rw [Plan.wakeSleepers]
    split_ifs
    · refine ih (h.lift (hq t (by simp)) rfl rfl) hts fun x hx => ?_
      exact mem_lift (hq x (by simp [hx])) fun he => ht (he ▸ hx)
    · exact ih h hts fun x hx => hq x (by simp [hx])

theorem Placed.drainQueue {ts : List ℕ} {i : ℕ} (h : a.Placed) (hts : ts.Nodup)
    (hq : ∀ t ∈ ts, t ∈ a.queue (.ready i)) : (drainQueue i ts a).Placed := by
  induction ts generalizing a with
  | nil => exact h
  | cons t ts ih =>
    obtain ⟨ht, hts⟩ := List.nodup_cons.mp hts
    have hmem := hq t (by simp)
    rw [Plan.drainQueue]
    refine ih (h.lift hmem (h.state _ t hmem) rfl) hts fun x hx => ?_
    exact mem_lift (hq x (by simp [hx])) fun he => ht (he ▸ hx)

theorem Placed.resetQueues (h : a.Placed) : a.resetQueues.Placed := by
  have h1 : (a.resetQueue 1).Placed := h.drainQueue (h.nodup _) fun _ ht => ht
  have h2 : ((a.resetQueue 1).resetQueue 2).Placed := h1.drainQueue (h1.nodup _) fun _ ht => ht
  exact h2.congr rfl rfl rfl rfl rfl rfl fun _ => ⟨rfl, rfl⟩

theorem Thread.priority_demote (t : Thread) : t.demote.priority < 3 := by
  rw [Thread.demote]
  split_ifs with h
  · exact Nat.lt_succ_self 2
  · obtain h0 : t.priority = 0 := by omega
    change inc8 t.priority < 3
    rw [h0]
    decide

theorem Thread.state_demote (t : Thread) : t.demote.state = t.state := by
  rw [Thread.demote]
  split_ifs <;> rfl

theorem Placed.chargeCurrent (h : a.Placed) : a.chargeCurrent.2.Placed := by
  have h1 : (a.modify a.currentThread Thread.charge).Placed :=
    h.adjustCurrent (h.levels _ h.current) h.running
  rw [Plan.chargeCurrent]
  split_ifs
  · refine h1.adjustCurrent (Thread.priority_demote _) ?_
    rw [Thread.state_demote]
    exact h1.running
  · exact h1

theorem Placed.countTick (h : a.Placed) : a.countTick.Placed :=
  h.congr rfl rfl rfl rfl rfl rfl fun _ => ⟨rfl, rfl⟩

theorem Placed.boostCurrent (h : a.Placed) : a.boostCurrent.Placed := by
  rw [Plan.boostCurrent]
  split_ifs
  · exact h.adjustCurrent (by simp [Thread.boost]) h.running
  · exact h

theorem Placed.tickBody (h : a.Placed) : a.tickBody.2.Placed := by
  have h1 := h.wakeSleepers (h.nodup .sleeping) fun _ ht => ht
  rw [Plan.tickBody, Plan.idleTick, Plan.busyTick]
  split_ifs
  · exact h1.countTick.resetQueues
  · exact h1.countTick
  · exact h1.chargeCurrent.countTick.resetQueues.boostCurrent
  · exact h1.chargeCurrent.countTick

/-- Only control blocks, queues and the tick counter differ. -/
def TickFrame (a b : Plan) : Prop :=
  b = { a with tcb := b.tcb, queue := b.queue, counter := b.counter }

theorem TickFrame.trans {c : Plan} (h : TickFrame a b) (h' : TickFrame b c) : TickFrame a c := by
  unfold TickFrame at h h' ⊢
  rw [h', h]

theorem tickFrame_lift : TickFrame a (a.lift p t f) := rfl

theorem tickFrame_wakeSleepers (ts : List ℕ) (a : Plan) : TickFrame a (wakeSleepers ts a) := by
  induction ts generalizing a with
  | nil => rfl
  | cons t ts ih =>
    rw [Plan.wakeSleepers]
    split_ifs
    · exact tickFrame_lift.trans (ih _)
    · exact ih a

theorem tickFrame_drainQueue (i : ℕ) (ts : List ℕ) (a : Plan) : TickFrame a (drainQueue i ts a) := by
  induction ts generalizing a with
  | nil => rfl
  | cons t ts ih => exact tickFrame_lift.trans (ih _)

theorem tickFrame_resetQueues (a : Plan) : TickFrame a a.resetQueues :=
  ((tickFrame_drainQueue 1 _ a).trans (tickFrame_drainQueue 2 _ _)).trans rfl

theorem tickFrame_chargeCurrent (a : Plan) : TickFrame a a.chargeCurrent.2 := by
  rw [Plan.chargeCurrent]
  split_ifs <;> rfl

theorem tickFrame_boostCurrent (a : Plan) : TickFrame a a.boostCurrent := by
  rw [Plan.boostCurrent]
  split_ifs <;> rfl

theorem tickFrame_tickBody (a : Plan) : TickFrame a a.tickBody.2 := by
  refine (tickFrame_wakeSleepers (a.queue .sleeping) a).trans ?_
  rw [Plan.tickBody, Plan.idleTick, Plan.busyTick]
  have hcount : ∀ b : Plan, TickFrame b b.countTick := fun b => rfl
  split_ifs
  · exact (hcount _).trans (tickFrame_resetQueues _)
  · exact hcount _
  · exact ((tickFrame_chargeCurrent _).trans (hcount _)).trans
      ((tickFrame_resetQueues _).trans (tickFrame_boostCurrent _))
  · exact (tickFrame_chargeCurrent _).trans (hcount _)

theorem TickFrame.sameObjects (h : TickFrame a b) : SameObjects a b := by
  unfold TickFrame at h
  rw [h]
  exact ⟨rfl, rfl, rfl, rfl, rfl, rfl, rfl⟩

theorem Unlocked.tickBody (h : a.Unlocked) : a.tickBody.2.Unlocked := by
  rw [a.tickFrame_tickBody]
  exact ⟨h.irq, h.postpone, h.flag⟩

end Ticks

end Plan

end KallarOS.Sched
