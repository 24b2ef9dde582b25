import KallarOS.SchedQuanta
import KallarOS.SchedReaping

namespace KallarOS.Sched
open Function Pmm Relation

/-- The thread need not sleep any longer. -/
def Thread.due (ticks : ℕ) (t : Thread) : Bool := t.wakeTime ≤ ticks

/-- The queues after a wake loop at tick count `ticks`: the due sleepers stand behind
the top ready queue, the others are still asleep, both in their old order. -/
def wokenQueues (tcb : ℕ → Thread) (ticks : ℕ) (q : Place → List ℕ) : Place → List ℕ :=
  update (update q .sleeping ((q .sleeping).filter fun t => !(tcb t).due ticks)) (.ready 0)
    (q (.ready 0) ++ (q .sleeping).filter fun t => (tcb t).due ticks)

namespace Plan

variable {a : Plan} {t x : ℕ} {p : Place} {f : Thread → Thread} {e : Event}

section Waking

theorem queue_lift_sleeping (a : Plan) (t : ℕ) (f : Thread → Thread) :
    (a.lift .sleeping t f).queue = update (update a.queue .sleeping ((a.queue .sleeping).erase t))
      (.ready 0) (a.queue (.ready 0) ++ [t]) := by
  have h0 : update a.queue .sleeping ((a.queue .sleeping).erase t) (.ready 0) = a.queue (.ready 0) :=
    update_of_ne (by simp) _ _
  rw [← h0]
  rfl

/-- The wake loop with `kept` passed and `ts` to come. -/
theorem queue_wakeSleepers_suffix {kept ts : List ℕ} (hnd : (kept ++ ts).Nodup)
    (hq : a.queue .sleeping = kept ++ ts) : (wakeSleepers ts a).queue =
      update (update a.queue .sleeping
        (kept ++ ts.filter fun t => !(a.tcb t).due a.systemTicks)) (.ready 0)
        (a.queue (.ready 0) ++ ts.filter fun t => (a.tcb t).due a.systemTicks) := by
  induction ts generalizing a kept with
  | nil =>
    rw [wakeSleepers, List.filter_nil, List.filter_nil, ← hq, List.append_nil, update_eq_self,
      update_eq_self]
  | cons t ts ih =>
    obtain ⟨hk, hts, hkept⟩ := List.nodup_append.mp hnd
    have htk : t ∉ kept := fun ht => hkept t ht t (by simp) rfl
    obtain ⟨htt, hts⟩ := List.nodup_cons.mp hts
    rw [wakeSleepers, List.filter_cons, List.filter_cons]
    by_cases hdue : (a.tcb t).wakeTime ≤ a.systemTicks
    · have hd : (a.tcb t).due a.systemTicks = true := decide_eq_true hdue
      set b := a.lift .sleeping t fun th => { th with state := .ready } with hb
      have hqueue := a.queue_lift_sleeping t fun th => { th with state := .ready }
      have hsleep : b.queue .sleeping = kept ++ ts := by
        rw [hb, hqueue, update_of_ne (by simp), update_self, hq, List.erase_append_right _ htk,
          List.erase_cons_head]
      have hnd' : (kept ++ ts).Nodup :=
        List.nodup_append.mpr ⟨hk, hts, fun x hx y hy => hkept x hx y (List.mem_cons_of_mem t hy)⟩
      -- the turn of `t` touches no control block the rest of the walk looks at
      have hsame : ∀ y ∈ ts, (b.tcb y).due b.systemTicks = (a.tcb y).due a.systemTicks := by
        intro y hy
        have hyt : y ≠ t := fun he => htt (he ▸ hy)
        rw [hb, tcb_lift_of_ne hyt]
        rfl
      have hnot : ∀ y ∈ ts, (!(b.tcb y).due b.systemTicks) = !(a.tcb y).due a.systemTicks :=
        fun y hy => congrArg not (hsame y hy)
      rw [if_pos hdue, ih hnd' hsleep, List.filter_congr hsame, List.filter_congr hnot]
      funext p
      by_cases h0 : p = .ready 0
      · simp [h0, hb, hqueue, hd]
      · by_cases hs : p = .sleeping
        · simp [hs, hd]
        · simp [h0, hs, hb, hqueue]
    · have hd : (a.tcb t).due a.systemTicks = false := decide_eq_false hdue
      have hnd' : ((kept ++ [t]) ++ ts).Nodup := by simpa using hnd
      have hq' : a.queue .sleeping = (kept ++ [t]) ++ ts := by simpa using hq
      rw [if_neg hdue, ih hnd' hq']
      simp [hd]

/-- The wake loop moves exactly the due sleepers, in their order. -/
theorem Placed.queue_wakeSleepers (h : a.Placed) :
    (Plan.wakeSleepers (a.queue .sleeping) a).queue =
    wokenQueues a.tcb a.systemTicks a.queue := by
  have hnd : ([] ++ a.queue .sleeping).Nodup := h.nodup .sleeping
  exact queue_wakeSleepers_suffix hnd rfl

theorem tcb_wakeSleepers_of_early {ts : List ℕ} (ht : a.systemTicks < (a.tcb t).wakeTime) :
    (wakeSleepers ts a).tcb t = a.tcb t := by
  induction ts generalizing a with
  | nil => rfl
  | cons x ts ih =>
    rw [wakeSleepers]
    split_ifs with hdue
    · have htx : t ≠ x := by
        rintro rfl
        exact absurd hdue (not_le.mpr ht)
      have hlift := tcb_lift_of_ne (a := a) (p := .sleeping)
        (f := fun th => { th with state := .ready }) htx
      rw [ih (by rw [hlift]; exact ht), hlift]
    · exact ih ht

end Waking

section WakeTimes

/-- `wake_time` is written by `thread_sleep` alone. -/
theorem wakeTime_reschedule (a : Plan) (x : ℕ) :
    (a.reschedule.tcb x).wakeTime = (a.tcb x).wakeTime := by
  obtain ⟨_, _, hx⟩ := a.tcb_reschedule x
  rw [hx]

theorem wakeTime_lockScheduler (a : Plan) (x : ℕ) :
    (a.lockScheduler.tcb x).wakeTime = (a.tcb x).wakeTime := by
  obtain ⟨_, hx⟩ := a.tcb_lockScheduler x
  rw [hx]

theorem wakeTime_modify (hf : ∀ th, (f th).wakeTime = th.wakeTime) :
    ((a.modify t f).tcb x).wakeTime = (a.tcb x).wakeTime := by
  by_cases hx : x = t
  · rw [hx, tcb_modify_self, hf]
  · rw [tcb_modify_of_ne hx]

theorem wakeTime_enqueueThread {i : ℕ} :
    ((a.enqueueThread t i).tcb x).wakeTime = (a.tcb x).wakeTime := by
  rw [enqueueThread, tcb_push]
  exact wakeTime_modify fun _ => rfl

theorem wakeTime_lift (hf : ∀ th, (f th).wakeTime = th.wakeTime) :
    ((a.lift p t f).tcb x).wakeTime = (a.tcb x).wakeTime := by
  rw [lift, wakeTime_enqueueThread, tcb_remove, wakeTime_modify hf]

theorem wakeTime_promote : ((a.promote p t).tcb x).wakeTime = (a.tcb x).wakeTime := by
  rw [promote, wakeTime_enqueueThread, tcb_remove]
  exact wakeTime_modify fun _ => rfl

theorem wakeTime_wakeSleepers {ts : List ℕ} :
    ((wakeSleepers ts a).tcb x).wakeTime = (a.tcb x).wakeTime := by
  induction ts generalizing a with
  | nil => rfl
  | cons t ts ih =>
    rw [wakeSleepers]
    split_ifs
    · rw [ih]
      exact wakeTime_lift fun _ => rfl
    · exact ih

theorem wakeTime_drainQueue {i : ℕ} {ts : List ℕ} :
    ((drainQueue i ts a).tcb x).wakeTime = (a.tcb x).wakeTime := by
  induction ts generalizing a with
  | nil => rfl
  | cons t ts ih =>
    rw [drainQueue, ih]
    exact wakeTime_lift fun _ => rfl

theorem wakeTime_resetQueues : (a.resetQueues.tcb x).wakeTime = (a.tcb x).wakeTime :=
  wakeTime_drainQueue.trans wakeTime_drainQueue

theorem wakeTime_demote (th : Thread) : th.demote.wakeTime = th.wakeTime := by
  rw [Thread.demote]
  split_ifs <;> rfl

theorem wakeTime_chargeCurrent : (a.chargeCurrent.2.tcb x).wakeTime = (a.tcb x).wakeTime := by
  rw [chargeCurrent]
  split_ifs
  · rw [wakeTime_modify wakeTime_demote]
    exact wakeTime_modify fun _ => rfl
  · exact wakeTime_modify fun _ => rfl

theorem wakeTime_boostCurrent : (a.boostCurrent.tcb x).wakeTime = (a.tcb x).wakeTime := by
  rw [boostCurrent]
  split_ifs
  · exact wakeTime_modify fun _ => rfl
  · rfl

theorem wakeTime_countTick : (a.countTick.tcb x).wakeTime = (a.tcb x).wakeTime := rfl

theorem wakeTime_tickBody : (a.tickBody.2.tcb x).wakeTime = (a.tcb x).wakeTime := by
  rw [tickBody, idleTick, busyTick]
  split_ifs
  · rw [wakeTime_resetQueues, wakeTime_countTick, wakeTime_wakeSleepers]
  · rw [wakeTime_countTick, wakeTime_wakeSleepers]
  · rw [wakeTime_boostCurrent, wakeTime_resetQueues, wakeTime_countTick, wakeTime_chargeCurrent,
      wakeTime_wakeSleepers]
  · rw [wakeTime_countTick, wakeTime_chargeCurrent, wakeTime_wakeSleepers]

theorem wakeTime_blockOn (hx : x ≠ a.currentThread) :
    ((a.blockOn p f).tcb x).wakeTime = (a.tcb x).wakeTime := by
  rw [blockOn, wakeTime_reschedule, tcb_push, tcb_modify_of_ne hx, wakeTime_lockScheduler]

theorem Unlocked.wakeTime_apicTimerHandler (h : a.Unlocked) :
    (a.apicTimerHandler.tcb x).wakeTime = (a.tcb x).wakeTime := by
  have hunlocked : Unlocked { a with systemTicks := (a.systemTicks + 1) % 2 ^ 64 } :=
    ⟨h.irq, h.postpone, h.flag⟩
  have hbody := wakeTime_tickBody (a := { a with systemTicks := (a.systemTicks + 1) % 2 ^ 64 }) (x := x)
  rw [apicTimerHandler, schedulerOnTick_eq hunlocked]
  split_ifs
  · rw [tcb_unlockScheduler, wakeTime_reschedule, wakeTime_lockScheduler]
    exact hbody
  · exact hbody

/-- No operation changes the wake time of a thread that is not running. -/
theorem Resting.wakeTime_step (h : a.Resting) (hx : x ≠ a.currentThread) :
    ((a.step e).tcb x).wakeTime = (a.tcb x).wakeTime := by
  cases e with
  | createKernelThread t =>
    rw [Plan.step, Plan.createKernelThread, wakeTime_enqueueThread]
    by_cases hxt : x = t
    · simp [hxt, newThread]
    · simp [hxt]
  | createMutex m => rfl
  | createSemaphore m maxCount => rfl
  | tick => exact h.toUnlocked.wakeTime_apicTimerHandler
  | threadSleep d =>
    rw [Plan.step, tcb_unlockScheduler, enterSleep_eq h.toUnlocked, wakeTime_blockOn hx]
  | threadExit => rw [Plan.step, tcb_unlockScheduler, enterExit_eq h.toUnlocked, wakeTime_blockOn hx]
  | acquireMutex m =>
    rw [Plan.step, tcb_unlockScheduler, enterAcquireMutex_eq h.toUnlocked]
    split_ifs
    · exact a.wakeTime_lockScheduler x
    · exact wakeTime_blockOn hx
  | acquireSemaphore m =>
    rw [Plan.step, tcb_unlockScheduler, enterAcquireSemaphore_eq h.toUnlocked]
    split_ifs
    · exact a.wakeTime_lockScheduler x
    · exact wakeTime_blockOn hx
  | releaseMutex m =>
    rw [Plan.step, tcb_unlockScheduler]
    cases hq : a.queue (.mutex m) with
    | nil =>
      rw [enterReleaseMutex_nil h.toUnlocked hq]
      exact a.wakeTime_lockScheduler x
    | cons t ts =>
      rw [enterReleaseMutex_cons h.toUnlocked hq, wakeTime_reschedule]
      exact wakeTime_promote.trans (a.wakeTime_lockScheduler x)
  | releaseSemaphore m =>
    rw [Plan.step, tcb_unlockScheduler]
    cases hq : a.queue (.semaphore m) with
    | nil =>
      rw [enterReleaseSemaphore_nil h.toUnlocked hq]
      split_ifs <;> exact a.wakeTime_lockScheduler x
    | cons t ts =>
      rw [enterReleaseSemaphore_cons h.toUnlocked hq, wakeTime_reschedule, wakeTime_promote,
        wakeTime_lockScheduler]
  | detachTerminated => exact a.wakeTime_lockScheduler x
  | reapThread => rfl

end WakeTimes

section Sleepers

/-- `t` sleeps until tick count `w`. -/
structure Asleep (a : Plan) (t w : ℕ) : Prop where
  mem : t ∈ a.queue .sleeping
  wake : (a.tcb t).wakeTime = w

variable {w d : ℕ}

theorem Asleep.ne_current (h : a.Asleep t w) (ha : a.Placed) : t ≠ a.currentThread :=
  fun he => ha.free .sleeping (he ▸ h.mem)

/-- The caller of `thread_sleep` is asleep. -/
theorem Resting.asleep_threadSleep (h : a.Resting) :
    (a.step (.threadSleep d)).Asleep a.currentThread ((a.systemTicks + d) % 2 ^ 64) := by
  rw [Plan.step, enterSleep_eq h.toUnlocked, Plan.blockOn]
  refine ⟨?_, ?_⟩
  · rw [queue_unlockScheduler, queue_reschedule (by simp)]
    exact mem_push.mpr (.inr ⟨rfl, rfl⟩)
  · rw [tcb_unlockScheduler, wakeTime_reschedule, tcb_push, tcb_modify_self]

theorem queue_sleeping_tickBody :
    a.tickBody.2.queue .sleeping = (wakeSleepers (a.queue .sleeping) a).queue .sleeping := by
  rw [tickBody, idleTick, busyTick]
  split_ifs
  · rw [queue_resetQueues (by simp), queue_countTick]
  · rw [queue_countTick]
  · rw [queue_boostCurrent, queue_resetQueues (by simp), queue_countTick, queue_chargeCurrent]
  · rw [queue_countTick, queue_chargeCurrent]

/-- A tick leaves exactly the sleepers that are not due. -/
theorem Resting.queue_sleeping_tick (h : a.Resting) : a.apicTimerHandler.queue .sleeping =
    (a.queue .sleeping).filter fun t => !(a.tcb t).due ((a.systemTicks + 1) % 2 ^ 64) := by
  set b : Plan := { a with systemTicks := (a.systemTicks + 1) % 2 ^ 64 }
  have hrest : b.Resting := h.countSystemTick
  have hbody : b.tickBody.2.queue .sleeping =
      (b.queue .sleeping).filter fun t => !(b.tcb t).due b.systemTicks := by
    rw [queue_sleeping_tickBody, hrest.toPlaced.queue_wakeSleepers, wokenQueues,
      update_of_ne (by simp), update_self]
  change b.schedulerOnTick.queue .sleeping = _
  rw [schedulerOnTick_eq hrest.toUnlocked]
  split_ifs
  · rw [queue_unlockScheduler, queue_reschedule (by simp)]
    exact hbody
  · exact hbody

/-- A sleeper stays asleep through every operation but a tick at or after its time. -/
theorem Asleep.step (h : a.Asleep t w) (ha : a.Resting)
    (hearly : e = .tick → (a.systemTicks + 1) % 2 ^ 64 < w) : (a.step e).Asleep t w := by
  refine ⟨?_, (ha.wakeTime_step (h.ne_current ha.toPlaced)).trans h.wake⟩
  by_cases htick : e = .tick
  · subst htick
    have hlt := hearly rfl
    rw [Plan.step, ha.queue_sleeping_tick, List.mem_filter]
    refine ⟨h.mem, ?_⟩
    rw [Thread.due, h.wake]
    simpa using hlt
  · by_cases hsleep : ∃ d, e = .threadSleep d
    · obtain ⟨d, rfl⟩ := hsleep
      rw [Plan.step, queue_unlockScheduler, enterSleep_eq ha.toUnlocked, blockOn,
        queue_reschedule (by simp)]
      exact mem_push.mpr (.inl h.mem)
    · rw [ha.queue_spared (.inl rfl)]
      · exact h.mem
      · cases e <;> simp_all [Spares]

/-- A tick at or after its time makes a sleeper ready, and it may run at once. -/
theorem Asleep.awake (h : a.Asleep t w) (ha : a.Resting) (hdue : w ≤ (a.systemTicks + 1) % 2 ^ 64) :
    t = a.apicTimerHandler.currentThread ∨ ∃ i < 3, t ∈ a.apicTimerHandler.queue (.ready i) := by
  have hal := ha.alive _ t h.mem
  have hidle : t ≠ a.idleThread := fun he => ha.idle_free _ (he ▸ h.mem)
  have hsame := sameObjects_apicTimerHandler ha.toUnlocked
  have hplaced : a.apicTimerHandler.Resting := ha.countSystemTick.schedulerOnTick
  have hstate := (ha.tick_long h.mem (h.wake.trans_le hdue)).2.2
  by_cases hcur : t = a.apicTimerHandler.currentThread
  · exact .inl hcur
  · have hready : (a.apicTimerHandler.tcb t).state = .ready :=
      hstate.resolve_right fun hrun => hcur ((hplaced.running_iff (hsame.alive ▸ hal)).mp hrun)
    obtain ⟨p, hp⟩ := hplaced.waits t (hsame.alive ▸ hal) (hsame.idleThread ▸ hidle) hcur
    have hpstate := hplaced.state p t hp
    rw [hready] at hpstate
    cases p with
    | ready i =>
      have hlevel := hplaced.level i t hp
      exact .inr ⟨i, hlevel ▸ hplaced.levels t (hsame.alive ▸ hal), hp⟩
    | _ => simp at hpstate

theorem systemTicks_lockScheduler (a : Plan) : a.lockScheduler.systemTicks = a.systemTicks := rfl

theorem systemTicks_unlockScheduler (a : Plan) : a.unlockScheduler.systemTicks = a.systemTicks := rfl

theorem systemTicks_reschedule (a : Plan) : a.reschedule.systemTicks = a.systemTicks := by
  rw [reschedule_eq]

theorem Unlocked.systemTicks_tick (h : a.Unlocked) :
    a.apicTimerHandler.systemTicks = (a.systemTicks + 1) % 2 ^ 64 := by
  have hunlocked : Unlocked { a with systemTicks := (a.systemTicks + 1) % 2 ^ 64 } :=
    ⟨h.irq, h.postpone, h.flag⟩
  rw [apicTimerHandler, schedulerOnTick_eq hunlocked]
  split_ifs
  · rw [systemTicks_unlockScheduler, systemTicks_reschedule, systemTicks_lockScheduler,
      tickFrame_tickBody]
  · rw [tickFrame_tickBody]

end Sleepers

end Plan

section Results

/-- `s'` is `s` after a wake loop at tick count `ticks` over the queues `q`. -/
structure WokenFrom (s : SchedState) (q : Place → List ℕ) (ticks : ℕ) (s' : SchedState) : Prop where
  placement : Placement s' (wokenQueues s.tcb ticks q)
  woken : ∀ t ∈ q .sleeping, (s.tcb t).wakeTime ≤ ticks →
    s'.tcb t = { s.tcb t with state := .ready, priority := 0 }
  others : ∀ t, t ∉ q .sleeping ∨ ticks < (s.tcb t).wakeTime → s'.tcb t = s.tcb t

/-- A step that is no tick at or after tick count `w`. -/
def EarlyStep (w : ℕ) (s s' : SchedState) : Prop :=
  ∃ e : Event, e.Allowed s ∧ exec s e = .ok s' ∧ (e = .tick → s'.systemTicks < w)

variable {s s' : SchedState} {a : Plan} {root idle cleaner : ℕ}

theorem Rep.wokenFrom (h : Rep s a) (ha : a.Placed) (ticks : ℕ) :
    ∃ s', Sched.wakeSleepers walkFuel { s with systemTicks := ticks } s.sleepingThreadQueue 0 =
      .ok s' ∧ WokenFrom s a.queue ticks s' := by
  set b : Plan := { a with systemTicks := ticks } with hb
  have hrep : Rep { s with systemTicks := ticks } b :=
    h.mapCommon (fun c => { c with systemTicks := ticks }) (fun _ => rfl) (fun _ => rfl) fun _ => rfl
  have hplaced : b.Placed := ha.congr rfl rfl rfl rfl rfl rfl fun _ => ⟨rfl, rfl⟩
  have hhead : s.sleepingThreadQueue = (b.queue .sleeping).headD 0 := h.queues.head_eq .sleeping
  obtain ⟨s', hs', h'⟩ := hrep.wakeSleepers (b.queue .sleeping) [] rfl (hrep.length_lt .sleeping)
  rw [List.getLastD_nil, ← hhead] at hs'
  have hwoken := hplaced.wakeSleepers (hplaced.nodup .sleeping) fun _ ht => ht
  refine ⟨s', hs', ?_, fun t ht hdue => ?_, fun t ht => ?_⟩
  · have hplace := h'.placement hwoken
    rw [hplaced.queue_wakeSleepers] at hplace
    rw [h.tcb_eq]
    exact hplace
  · rw [h.tcb_eq] at hdue ⊢
    rw [h'.tcb_eq]
    exact Plan.tcb_wakeSleepers_of_due (a := b) (hplaced.nodup .sleeping) ht hdue
  · rw [h.tcb_eq] at ht ⊢
    rw [h'.tcb_eq]
    rcases ht with ht | ht
    · exact Plan.tcb_wakeSleepers_of_notMem (a := b) ht
    · exact Plan.tcb_wakeSleepers_of_early (a := b) ht

theorem Steady.systemTicks_eq (h : Steady s a) : s.systemTicks = a.systemTicks :=
  congrArg Common.systemTicks h.rep.common

theorem Steady.asleep_run {t w : ℕ} (h : Steady s a) (ht : a.Asleep t w)
    (hr : ReflTransGen (EarlyStep w) s s') : ∃ a', Steady s' a' ∧ a'.Asleep t w := by
  induction hr with
  | refl => exact ⟨a, h, ht⟩
  | tail _ hstep ih =>
    obtain ⟨a', h', ht'⟩ := ih
    obtain ⟨e, he, hok, hearly⟩ := hstep
    have h'' := h'.step he hok
    refine ⟨_, h'', ht'.step h'.resting fun htick => ?_⟩
    have hlt := hearly htick
    subst htick
    rwa [h''.systemTicks_eq, Plan.step, h'.resting.toUnlocked.systemTicks_tick] at hlt

/-- The wake loop is exact in every reachable state and for every tick count; and a
thread that called `thread_sleep` does not run before the tick count it asked for (the
64-bit sum `system_ticks + requested_time`), and runs or is ready after the first tick
that reaches it. -/
theorem sleep_exact (hb : Boot s) (hm : Blocks root idle cleaner) :
    ∃ s₀, initializeMultitasking s root idle cleaner = .ok s₀ ∧
      ∀ s', ReflTransGen Step s₀ s' →
        (∃ q, Placement s' q ∧ ∀ ticks, ∃ s'',
          wakeSleepers walkFuel { s' with systemTicks := ticks } s'.sleepingThreadQueue 0 = .ok s'' ∧
            WokenFrom s' q ticks s'') ∧
        ∀ requestedTime s₁, (Event.threadSleep requestedTime).Allowed s' →
          exec s' (.threadSleep requestedTime) = .ok s₁ →
          ∀ s₂, ReflTransGen (EarlyStep ((s'.systemTicks + requestedTime) % 2 ^ 64)) s₁ s₂ →
            s₂.currentThread ≠ s'.currentThread ∧
            (s₂.tcb s'.currentThread).state = .sleeping ∧
            ∀ s₃, exec s₂ .tick = .ok s₃ →
              (s'.systemTicks + requestedTime) % 2 ^ 64 ≤ s₃.systemTicks →
              s₃.currentThread = s'.currentThread ∨
                ∃ q, Placement s₃ q ∧ ∃ i < 3, s'.currentThread ∈ q (.ready i) := by
  obtain ⟨s₀, hs₀, h₀⟩ := initializeMultitasking_steady hb hm
  refine ⟨s₀, hs₀, fun s' hr => ?_⟩
  obtain ⟨a, h⟩ := h₀.run hr
  refine ⟨⟨a.queue, h.placement, fun ticks => h.rep.wokenFrom h.resting.toPlaced ticks⟩,
    fun d s₁ he hok s₂ hearly => ?_⟩
  have h₁ := h.step he hok
  rw [h.systemTicks_eq] at hearly ⊢
  rw [h.rep.current_eq]
  obtain ⟨a₂, h₂, hasleep⟩ := h₁.asleep_run h.resting.asleep_threadSleep hearly
  refine ⟨?_, ?_, fun s₃ hs₃ hdue => ?_⟩
  · rw [h₂.rep.current_eq]
    exact (hasleep.ne_current h₂.resting.toPlaced).symm
  · rw [h₂.rep.tcb_eq]
    exact h₂.resting.state _ _ hasleep.mem
  · have h₃ := h₂.step (e := .tick) ⟨by simp, trivial⟩ hs₃
    rw [h₃.systemTicks_eq, Plan.step, h₂.resting.toUnlocked.systemTicks_tick] at hdue
    rcases hasleep.awake h₂.resting hdue with hcur | ⟨i, hi, hmem⟩
    · left
      rw [h₃.rep.current_eq]
      exact hcur.symm
    · exact .inr ⟨_, h₃.placement, i, hi, hmem⟩

theorem Placement.mem_sleeping {q : Place → List ℕ} {t : ℕ} (h : Placement s q) (ht : t ∈ s.alive)
    (hidle : t ≠ s.idleThread) (hs : (s.tcb t).state = .sleeping) : t ∈ q .sleeping := by
  rcases h.placed t ht hidle with ⟨-, hrun, -⟩ | ⟨-, p, hp, -, hstate, -⟩
  · rw [hs] at hrun
    cases hrun
  · rw [hs] at hstate
    cases p <;> simp at hstate
    exact hp

/-- The root thread sleeps for three ticks and the cleaner for six. -/
def sleepEvents : List Event := [.createKernelThread 80, .threadSleep 3, .threadSleep 6]

/-- The wake loop at tick 4 finds one of two sleepers due; and the third thread, which
sleeps for two ticks, still does so after the first and no longer after the second. -/
theorem sleep_exact_sample :
    ∃ s₀ s', initializeMultitasking zeroState 16 32 48 = .ok s₀ ∧ ReflTransGen Step s₀ s' ∧
      (∃ s'', wakeSleepers walkFuel { s' with systemTicks := 4 } s'.sleepingThreadQueue 0 = .ok s'' ∧
        (s''.tcb 16).state = .ready ∧ (s''.tcb 48).state = .sleeping) ∧
      ∃ s₁ s₂ s₃, exec s' (.threadSleep 2) = .ok s₁ ∧ exec s₁ .tick = .ok s₂ ∧
        exec s₂ .tick = .ok s₃ ∧ (s₂.tcb 80).state = .sleeping ∧
        (s₃.currentThread = 80 ∨ ∃ q, Placement s₃ q ∧ ∃ i < 3, 80 ∈ q (.ready i)) := by
  obtain ⟨s₀, hs₀, hrun⟩ := sleep_exact zeroState_boot sampleBlocks
  obtain ⟨s, hs, h₀⟩ := initializeMultitasking_steady zeroState_boot sampleBlocks
  cases hs.symm.trans hs₀
  obtain ⟨s', hr, h⟩ := h₀.follow sleepEvents (by decide)
  obtain ⟨⟨q, hq, hwake⟩, hsleep⟩ := hrun s' hr
  have hcur : s'.currentThread = 80 := h.rep.current_eq.trans (by decide)
  have hticks : s'.systemTicks = 0 := h.systemTicks_eq.trans (by decide)
  refine ⟨s₀, s', hs₀, hr, ?_, ?_⟩
  · obtain ⟨s'', hs'', hwoken⟩ := hwake 4
    have hroot : 16 ∈ q .sleeping := hq.mem_sleeping (by rw [h.rep.alive_eq]; decide)
      (by rw [h.rep.idle_eq]; decide) (by rw [h.rep.tcb_eq]; decide)
    refine ⟨s'', hs'', ?_, ?_⟩
    · rw [hwoken.woken 16 hroot (by rw [h.rep.tcb_eq]; decide)]
    · rw [hwoken.others 48 (.inr (by rw [h.rep.tcb_eq]; decide)), h.rep.tcb_eq]
      decide
  · obtain ⟨s₁, ⟨he, hs₁⟩, h₁⟩ := h.exists_step (e := .threadSleep 2) (by decide)
    obtain ⟨s₂, ⟨-, hs₂⟩, h₂⟩ := h₁.exists_step (e := .tick) (by decide)
    obtain ⟨s₃, ⟨-, hs₃⟩, h₃⟩ := h₂.exists_step (e := .tick) (by decide)
    have hearly : EarlyStep ((s'.systemTicks + 2) % 2 ^ 64) s₁ s₂ :=
      ⟨.tick, ⟨by simp, trivial⟩, hs₂, fun _ => by rw [hticks, h₂.systemTicks_eq]; decide⟩
    obtain ⟨-, hstate, hawake⟩ := hsleep 2 s₁ he hs₁ s₂ (.single hearly)
    rw [hcur] at hstate hawake
    refine ⟨s₁, s₂, s₃, hs₁, hs₂, hs₃, hstate, hawake s₃ hs₃ ?_⟩
    rw [hticks, h₃.systemTicks_eq]
    decide

end Results

section EarlyTicks

/-- The timer may already tick while `initialize_multitasking` has set neither
`current_thread` nor `idle_thread`. -/
structure Unstarted (s : SchedState) : Prop extends Boot s where
  current : s.currentThread = 0
  idle : s.idleThread = 0

/-- `n` timer interrupts in a row. -/
def ticks (n : ℕ) (s : SchedState) : Outcome SchedState :=
  Outcome.forRange n (fun _ s => apicTimerHandler s) s

variable {s : SchedState}

theorem drainQueue_empty {i : ℕ} (h0 : s.firstReady i = 0) : drainQueue i walkFuel s = .ok s := by
  have hfuel : walkFuel = 2 ^ 32 - 1 + 1 := by norm_num [walkFuel]
  rw [hfuel, drainQueue, if_pos h0]

theorem resetQueues_empty (h1 : s.firstReady 1 = 0) (h2 : s.firstReady 2 = 0) :
    resetQueues s = .ok { s with
      lastReady := update (update s.lastReady 1 0) 2 0
      counter := 0 } := by
  rw [resetQueues, resetQueue, drainQueue_empty h1, Outcome.ok_bind, Outcome.pure_eq_ok,
    Outcome.ok_bind, resetQueue, drainQueue_empty (by exact h2)]
  rfl

theorem idleTick_of_lt (h : inc8 s.counter < 100) : idleTick s = .ok (false, countTick s) :=
  if_neg (not_le.mpr h)

theorem idleTick_of_le (h : 100 ≤ inc8 s.counter) :
    idleTick s = resetQueues (countTick s) >>= fun s => .ok (true, s) := if_pos h

namespace Unstarted

theorem wakeSleepers (h : Unstarted s) :
    Sched.wakeSleepers walkFuel s s.sleepingThreadQueue 0 = .ok s := by
  have hfuel : walkFuel = 2 ^ 32 - 1 + 1 := by norm_num [walkFuel]
  have h0 : s.sleepingThreadQueue = 0 := h.head .sleeping
  rw [hfuel, Sched.wakeSleepers, if_pos h0]

/-- With both pointers NULL the tick takes the idle branch. -/
theorem tickBody (h : Unstarted s) : tickBody s = idleTick s := by
  rw [Sched.tickBody, h.wakeSleepers, Outcome.ok_bind, if_pos (h.current.trans h.idle.symm)]

theorem withClock (h : Unstarted s) (ticks count : ℕ) :
    Unstarted { s with systemTicks := ticks, counter := count } := by
  have hhead : SchedState.head { s with systemTicks := ticks, counter := count } = s.head := by
    funext p
    cases p <;> rfl
  exact ⟨⟨h.alive, fun p => hhead ▸ h.head p, h.mutexes, h.semaphores, h.irq, h.postpone, h.flag⟩,
    h.current, h.idle⟩

/-- A tick that does not complete the hundred touches no control block. -/
theorem apicTimerHandler (h : Unstarted s) (hc : s.counter < 99) :
    ∃ s', apicTimerHandler s = .ok s' ∧ Unstarted s' ∧ s'.counter = s.counter + 1 := by
  have h' := h.withClock ((s.systemTicks + 1) % 2 ^ 64) s.counter
  have hinc : inc8 s.counter = s.counter + 1 := Nat.mod_eq_of_lt (by omega)
  rw [Sched.apicTimerHandler, schedulerOnTick, enterTick, h'.tickBody, idleTick_of_lt (by
    change inc8 s.counter < 100
    omega)]
  exact ⟨_, rfl, h.withClock _ _, hinc⟩

/-- The hundredth saves EFLAGS through the NULL current thread. -/
theorem fault (h : Unstarted s) (hc : s.counter = 99) :
    Sched.apicTimerHandler s = .error (.fault 0) := by
  have h' := h.withClock ((s.systemTicks + 1) % 2 ^ 64) s.counter
  have hinc : inc8 s.counter = 100 := by rw [hc]; rfl
  have h1 : s.firstReady 1 = 0 := h.head (.ready 1)
  have h2 : s.firstReady 2 = 0 := h.head (.ready 2)
  have hlock : ∀ u : SchedState, u.irqDisableCounter = 0 → u.alive = ∅ → u.currentThread = 0 →
      lockScheduler u = .error (.fault 0) := by
    intro u hirq hal hcur
    rw [lockScheduler, saveInterrupts, if_pos (by exact hirq), SchedState.modify]
    simp only [hal, hcur, Finset.notMem_empty, if_false]
    rfl
  rw [Sched.apicTimerHandler, schedulerOnTick, enterTick, h'.tickBody, idleTick_of_le (by exact hinc.ge),
    resetQueues_empty (by exact h1) (by exact h2)]
  simp only [Outcome.ok_bind, if_true]
  rw [hlock _ (by exact h.irq) (by exact h.alive) (by exact h.current)]
  rfl

theorem ticks_lt (h : Unstarted s) (hc : s.counter = 0) {n : ℕ} (hn : n < 100) :
    ∃ s', ticks n s = .ok s' ∧ Unstarted s' ∧ s'.counter = n := by
  refine Outcome.forRange_ok (fun i u => Unstarted u ∧ u.counter = i) n _ s ⟨h, hc⟩ fun i hi u hu => ?_
  obtain ⟨u', hu', hstart, hcount⟩ := hu.1.apicTimerHandler (by omega)
  exact ⟨u', hu', hstart, by omega⟩

theorem ticks_fault (h : Unstarted s) (hc : s.counter = 0) {n : ℕ} (hn : 100 ≤ n) :
    ticks n s = .error (.fault 0) := by
  induction n, hn using Nat.le_induction with
  | base =>
    obtain ⟨u, hu, hstart, hcount⟩ := h.ticks_lt hc (n := 99) (by omega)
    have hturn : ticks 100 s = ticks 99 s >>= Sched.apicTimerHandler := rfl
    rw [hturn, hu, Outcome.ok_bind, hstart.fault hcount]
  | succ n _ ih =>
    have hturn : ticks (n + 1) s = ticks n s >>= Sched.apicTimerHandler := rfl
    rw [hturn, ih, Outcome.error_bind]

end Unstarted

/-- Ticks before `initialize_multitasking` are harmless as long as there are fewer
than a hundred; the hundredth writes through a NULL thread pointer. -/
theorem early_ticks_safe_iff (h : Unstarted s) (hc : s.counter = 0) (n : ℕ) :
    (ticks n s ≠ .error (.fault 0) ↔ n < 100) ∧ (n < 100 → ∃ s', ticks n s = .ok s') := by
  have hlow : n < 100 → ∃ s', ticks n s = .ok s' := by
    intro hn
    obtain ⟨s', hs', -⟩ := h.ticks_lt hc hn
    exact ⟨s', hs'⟩
  refine ⟨⟨fun hsafe => ?_, fun hn => ?_⟩, hlow⟩
  · by_contra hn
    exact hsafe (h.ticks_fault hc (not_lt.mp hn))
  · obtain ⟨s', hs'⟩ := hlow hn
    rw [hs']
    simp

theorem zeroState_unstarted : Unstarted zeroState := ⟨zeroState_boot, rfl, rfl⟩

theorem early_ticks_safe_iff_sample : ∃ s', ticks 99 zeroState = .ok s' :=
  (early_ticks_safe_iff zeroState_unstarted rfl 99).2 (by decide)

theorem hundredth_early_tick_faults :
    Unstarted zeroState ∧ zeroState.counter = 0 ∧ ticks 100 zeroState = .error (.fault 0) :=
  ⟨zeroState_unstarted, rfl, zeroState_unstarted.ticks_fault rfl (le_refl 100)⟩

end EarlyTicks

end KallarOS.Sched
