import KallarOS.SchedIdle

namespace KallarOS.Sched
open Function Relation

/-- The slice of a level. -/
def limit : ℕ → ℤ
  | 0 => firstLimit
  | 1 => secondLimit
  | _ => thirdLimit

/-- The thread has something left of the slice of its level, and no more than that. -/
def Thread.Sliced (t : Thread) : Prop := 1 ≤ t.remainingTime ∧ t.remainingTime ≤ limit t.priority

section Slices

variable {t t' : Thread}

theorem Thread.Sliced.congr (h : t.Sliced) (hp : t'.priority = t.priority)
    (hr : t'.remainingTime = t.remainingTime) : t'.Sliced := by
  rw [Thread.Sliced, hp, hr]
  exact h

theorem limit_le (i : ℕ) : limit i ≤ thirdLimit := by
  unfold limit
  split <;> decide

theorem Thread.sliced_top (hp : t.priority = 0) (hr : t.remainingTime = firstLimit) : t.Sliced := by
  rw [Thread.Sliced, hp, hr]
  decide

/-- Inside its slice the remaining time does not wrap. -/
theorem Thread.Sliced.remainingTime_charge (h : t.Sliced) :
    t.charge.remainingTime = t.remainingTime - 1 := by
  have h1 := h.1
  have h2 := h.2.trans (limit_le _)
  unfold thirdLimit at h2
  rw [Thread.charge]
  simp only [Int.bmod]
  split_ifs <;> omega

theorem Thread.sliced_demote (t : Thread) : t.demote.Sliced := by
  rw [Thread.demote]
  split_ifs with h
  · exact ⟨show 1 ≤ thirdLimit by decide, le_refl thirdLimit⟩
  · obtain h0 : t.priority = 0 := by omega
    refine ⟨show 1 ≤ secondLimit by decide, ?_⟩
    change secondLimit ≤ limit (inc8 t.priority)
    rw [h0]
    decide

end Slices

namespace Plan

variable {a b : Plan} {t : ℕ} {p : Place} {e : Event}

/-- Every thread but the idle one is inside its slice. -/
def Sliced (a : Plan) : Prop := ∀ t ∈ a.alive, t ≠ a.idleThread → (a.tcb t).Sliced

theorem Sliced.congr (h : a.Sliced) (hal : b.alive = a.alive) (hid : b.idleThread = a.idleThread)
    (hb : ∀ t, (b.tcb t).priority = (a.tcb t).priority ∧
      (b.tcb t).remainingTime = (a.tcb t).remainingTime) : b.Sliced := by
  intro t ht hidle
  rw [hal] at ht
  rw [hid] at hidle
  exact (h t ht hidle).congr (hb t).1 (hb t).2

theorem Sliced.modify {f : Thread → Thread} (h : a.Sliced)
    (hf : t ∈ a.alive → t ≠ a.idleThread → (f (a.tcb t)).Sliced) : (a.modify t f).Sliced := by
  intro x hx hidle
  by_cases hxt : x = t
  · subst hxt
    rw [tcb_modify_self]
    exact hf hx hidle
  · rw [tcb_modify_of_ne hxt]
    exact h x hx hidle

section Switches

/-- A reschedule changes no level and no remaining time. -/
theorem slice_reschedule (a : Plan) (x : ℕ) :
    (a.reschedule.tcb x).priority = (a.tcb x).priority ∧
      (a.reschedule.tcb x).remainingTime = (a.tcb x).remainingTime := by
  obtain ⟨_, _, hx⟩ := a.tcb_reschedule x
  rw [hx]
  exact ⟨rfl, rfl⟩

theorem Sliced.reschedule (h : a.Sliced) : a.reschedule.Sliced :=
  h.congr (sameObjects_reschedule a).alive (sameObjects_reschedule a).idleThread a.slice_reschedule

theorem Sliced.lockScheduler (h : a.Sliced) : a.lockScheduler.Sliced := by
  refine h.congr rfl rfl fun t => ?_
  obtain ⟨e, he⟩ := a.tcb_lockScheduler t
  exact ⟨by rw [he], by rw [he]⟩

theorem Sliced.unlockScheduler (h : a.Sliced) : a.unlockScheduler.Sliced := h

theorem Sliced.blockOn {f : Thread → Thread} (h : a.Sliced)
    (hf : ∀ th, (f th).priority = th.priority ∧ (f th).remainingTime = th.remainingTime) :
    (a.blockOn p f).Sliced := by
  have hmod : (a.lockScheduler.modify a.currentThread f).Sliced :=
    h.lockScheduler.modify fun hal hidle => (h.lockScheduler _ hal hidle).congr (hf _).1 (hf _).2
  exact Sliced.reschedule (a := a.parked p f) hmod

/-- A thread that becomes ready at its own level keeps its slice. -/
theorem Sliced.promote (h : a.Sliced) : (a.promote p t).Sliced := by
  refine h.congr rfl rfl fun x => ?_
  by_cases hx : x = t
  · simp [Plan.promote, hx]
  · simp [Plan.promote, tcb_enqueueThread_of_ne hx, tcb_modify_of_ne hx]

end Switches

section Ticks

theorem Sliced.lift {f : Thread → Thread} (h : a.Sliced)
    (hf : t ∈ a.alive → t ≠ a.idleThread →
      1 ≤ (f (a.tcb t)).remainingTime ∧ (f (a.tcb t)).remainingTime ≤ firstLimit) :
    (a.lift p t f).Sliced := by
  intro x hx hidle
  by_cases hxt : x = t
  · subst hxt
    have hr := hf hx hidle
    rw [Plan.lift, tcb_enqueueThread_self, tcb_remove, tcb_modify_self]
    exact hr
  · rw [tcb_lift_of_ne hxt]
    exact h x hx hidle

/-- Waking keeps the slices when every due sleeper has at most the slice of level 0. -/
theorem Sliced.wakeSleepers {ts : List ℕ} (h : a.Sliced) (hts : ts.Nodup)
    (hshort : ∀ t ∈ ts, (a.tcb t).wakeTime ≤ a.systemTicks → (a.tcb t).remainingTime ≤ firstLimit) :
    (wakeSleepers ts a).Sliced := by
  induction ts generalizing a with
  | nil => exact h
  | cons t ts ih =>
    obtain ⟨ht, hts⟩ := List.nodup_cons.mp hts
    rw [Plan.wakeSleepers]
    split_ifs with hdue
    -- the wake moves `t` to level 0 with the time it had: `hshort` is what makes that fit
    · refine ih (h.lift fun hal hidle => ?_) hts fun x hx => ?_
      · exact ⟨(h t hal hidle).1, hshort t (by simp) hdue⟩
      · have hxt : x ≠ t := fun he => ht (he ▸ hx)
        rw [tcb_lift_of_ne hxt]
        exact hshort x (by simp [hx])
    · exact ih h hts fun x hx => hshort x (by simp [hx])

theorem Sliced.drainQueue (h : a.Sliced) (i : ℕ) (ts : List ℕ) : (drainQueue i ts a).Sliced := by
  induction ts generalizing a with
  | nil => exact h
  | cons t ts ih => exact ih (h.lift fun _ _ => ⟨show 1 ≤ firstLimit by decide, le_refl firstLimit⟩)

theorem Sliced.resetQueues (h : a.Sliced) : a.resetQueues.Sliced :=
  (h.drainQueue 1 (a.queue (.ready 1))).drainQueue 2 _

/-- The current thread pays one tick and is demoted when its slice is used up. -/
theorem Sliced.chargeCurrent (h : a.Sliced) : a.chargeCurrent.2.Sliced := by
  rw [Plan.chargeCurrent]
  split_ifs with hend
  · intro x hx hidle
    by_cases hxc : x = a.currentThread
    · rw [hxc, tcb_modify_self]
      exact Thread.sliced_demote _
    · rw [tcb_modify_of_ne hxc, tcb_modify_of_ne hxc]
      exact h x hx hidle
  · refine h.modify fun hal hidle => ?_
    rw [tcb_modify_self] at hend
    have hs := h _ hal hidle
    have hcharge := hs.remainingTime_charge
    refine ⟨by omega, ?_⟩
    rw [hcharge]
    exact (sub_le_self _ (by decide)).trans hs.2

theorem Sliced.boostCurrent (h : a.Sliced) : a.boostCurrent.Sliced := by
  rw [Plan.boostCurrent]
  split_ifs
  · exact h.modify fun _ _ => Thread.sliced_top rfl rfl
  · exact h

/-- Every sleeper that is due at the next tick has at most the slice of level 0. -/
def Short (a : Plan) : Prop :=
  ∀ t ∈ a.queue .sleeping, (a.tcb t).wakeTime ≤ (a.systemTicks + 1) % 2 ^ 64 →
    (a.tcb t).remainingTime ≤ firstLimit

instance (a : Plan) : Decidable a.Short := inferInstanceAs (Decidable (∀ t ∈ _, _ ≤ _ → _ ≤ _))

theorem Sliced.tickBody (h : a.Sliced) (hnd : (a.queue .sleeping).Nodup)
    (hshort : ∀ t ∈ a.queue .sleeping, (a.tcb t).wakeTime ≤ a.systemTicks →
      (a.tcb t).remainingTime ≤ firstLimit) : a.tickBody.2.Sliced := by
  have h1 := h.wakeSleepers hnd hshort
  have hcount : ∀ {b : Plan}, b.Sliced → b.countTick.Sliced := fun hb => hb
  rw [Plan.tickBody, Plan.idleTick, Plan.busyTick]
  split_ifs
  · exact (hcount h1).resetQueues
  · exact hcount h1
  · exact (hcount h1.chargeCurrent).resetQueues.boostCurrent
  · exact hcount h1.chargeCurrent

theorem Resting.tick_sliced (h : a.Resting) (ha : a.Sliced) (hshort : a.Short) :
    a.apicTimerHandler.Sliced := by
  have hrest := h.countSystemTick
  have hbody := Sliced.tickBody (a := { a with systemTicks := (a.systemTicks + 1) % 2 ^ 64 }) ha
    (h.nodup .sleeping) hshort
  rw [apicTimerHandler, schedulerOnTick_eq hrest.toUnlocked]
  split_ifs
  · exact hbody.lockScheduler.reschedule.unlockScheduler
  · exact hbody

end Ticks

section LongSlices

theorem tcb_wakeSleepers_of_notMem {ts : List ℕ} (ht : t ∉ ts) :
    (wakeSleepers ts a).tcb t = a.tcb t := by
  induction ts generalizing a with
  | nil => rfl
  | cons x ts ih =>
    obtain ⟨htx, hts⟩ := not_or.mp (mt List.mem_cons.mpr ht)
    rw [wakeSleepers]
    split_ifs
    · rw [ih hts, tcb_lift_of_ne htx]
    · exact ih hts

/-- A due sleeper is ready at level 0 and otherwise as it was. -/
theorem tcb_wakeSleepers_of_due {ts : List ℕ} (hts : ts.Nodup) (ht : t ∈ ts)
    (hdue : (a.tcb t).wakeTime ≤ a.systemTicks) :
    (wakeSleepers ts a).tcb t = { a.tcb t with state := .ready, priority := 0 } := by
  induction ts generalizing a with
  | nil => simp at ht
  | cons x ts ih =>
    obtain ⟨hx, hts⟩ := List.nodup_cons.mp hts
    rw [wakeSleepers]
    -- once `t` is off the list later turns do not see it, and before that they leave it alone
    by_cases htx : t = x
    · subst htx
      rw [if_pos hdue, tcb_wakeSleepers_of_notMem hx, lift, tcb_enqueueThread_self, tcb_remove,
        tcb_modify_self]
    · have ht : t ∈ ts := by simpa [htx] using ht
      split_ifs
      · have hlift := ih (a := a.lift .sleeping x fun th => { th with state := .ready }) hts ht
          (by rw [tcb_lift_of_ne htx]; exact hdue)
        rwa [tcb_lift_of_ne htx] at hlift
      · exact ih hts ht hdue

/-- A woken thread is at level 0 with the time it had left. -/
theorem slice_wakeSleepers {ts : List ℕ} (hts : ts.Nodup) (ht : t ∈ ts)
    (hdue : (a.tcb t).wakeTime ≤ a.systemTicks) :
    ((wakeSleepers ts a).tcb t).priority = 0 ∧
      ((wakeSleepers ts a).tcb t).remainingTime = (a.tcb t).remainingTime := by
  rw [tcb_wakeSleepers_of_due hts ht hdue]
  exact ⟨rfl, rfl⟩

/-- A boost of the lower queues passes the threads of the top one by. -/
theorem drainQueue_top {ts : List ℕ} {i : ℕ} (hi : i ≠ 0) (ht : t ∈ a.queue (.ready 0))
    (hts : t ∉ ts) :
    (drainQueue i ts a).tcb t = a.tcb t ∧ t ∈ (drainQueue i ts a).queue (.ready 0) := by
  induction ts generalizing a with
  | nil => exact ⟨rfl, ht⟩
  | cons x ts ih =>
    obtain ⟨htx, hts⟩ := not_or.mp (mt List.mem_cons.mpr hts)
    have hmem : t ∈ (a.lift (.ready i) x fun th => { th with remainingTime := firstLimit }).queue
        (.ready 0) := by
      refine mem_enqueueThread.mpr (.inl ?_)
      simpa [remove, update_of_ne, hi.symm] using ht
    rw [drainQueue, ← tcb_lift_of_ne (a := a) (p := .ready i) htx]
    exact ih hmem hts

theorem Placed.resetQueues_top (h : a.Placed) (ht : t ∈ a.queue (.ready 0)) :
    a.resetQueues.tcb t = a.tcb t ∧ t ∈ a.resetQueues.queue (.ready 0) := by
  have hother : ∀ {b : Plan} (i : ℕ), b.Placed → i ≠ 0 → t ∈ b.queue (.ready 0) →
      t ∉ b.queue (.ready i) := by
    intro b i hb hi h0 hi'
    have := hb.apart _ _ t hi' h0
    exact hi (Place.ready.inj this)
  have h1 : (a.resetQueue 1).Placed := h.drainQueue (h.nodup _) fun _ ht => ht
  obtain ⟨htcb1, hmem1⟩ := drainQueue_top (i := 1) (by omega) ht (hother 1 h (by omega) ht)
  obtain ⟨htcb2, hmem2⟩ := drainQueue_top (a := a.resetQueue 1) (i := 2) (by omega) hmem1
    (hother 2 h1 (by omega) hmem1)
  exact ⟨htcb2.trans htcb1, hmem2⟩

theorem tcb_chargeCurrent_of_ne (ht : t ≠ a.currentThread) :
    a.chargeCurrent.2.tcb t = a.tcb t ∧ a.chargeCurrent.2.queue = a.queue := by
  rw [chargeCurrent]
  split_ifs
  · rw [tcb_modify_of_ne ht, tcb_modify_of_ne ht]
    exact ⟨rfl, rfl⟩
  · rw [tcb_modify_of_ne ht]
    exact ⟨rfl, rfl⟩

/-- The rest of the tick passes a ready thread of the top level by. -/
theorem Placed.tickBody_top (h : a.Placed)
    (ht : t ∈ (Plan.wakeSleepers (a.queue .sleeping) a).queue (.ready 0)) :
    a.tickBody.2.tcb t = (Plan.wakeSleepers (a.queue .sleeping) a).tcb t ∧
      t ∈ a.tickBody.2.queue (.ready 0) := by
  have h1 := h.wakeSleepers (h.nodup .sleeping) fun _ ht => ht
  have hne : t ≠ (Plan.wakeSleepers (a.queue .sleeping) a).currentThread := fun he =>
    h1.free _ (he ▸ ht)
  obtain ⟨htcb, hqueue⟩ := tcb_chargeCurrent_of_ne hne
  rw [Plan.tickBody, Plan.idleTick, Plan.busyTick]
  split_ifs
  · exact h1.countTick.resetQueues_top ht
  · exact ⟨rfl, ht⟩
  · obtain ⟨hreset, hmem⟩ := h1.chargeCurrent.countTick.resetQueues_top (t := t) (by
      change t ∈ (Plan.chargeCurrent _).2.queue _
      rwa [hqueue])
    have hne' : t ≠ (Plan.chargeCurrent (Plan.wakeSleepers (a.queue .sleeping)
        a)).2.countTick.resetQueues.currentThread :=
      fun he => h1.chargeCurrent.countTick.resetQueues.free _ (he ▸ hmem)
    rw [Plan.boostCurrent]
    split_ifs
    · rw [tcb_modify_of_ne hne', hreset]
      exact ⟨htcb, hmem⟩
    · rw [hreset]
      exact ⟨htcb, hmem⟩
  · refine ⟨htcb, ?_⟩
    change t ∈ (Plan.chargeCurrent _).2.queue _
    rwa [hqueue]

/-- A ready thread is running or ready after a reschedule. -/
theorem Leaving.state_reschedule (h : a.Leaving) (ht : t ∈ a.queue (.ready 0)) :
    (a.reschedule.tcb t).state = .ready ∨ (a.reschedule.tcb t).state = .running := by
  have hrequeue : t ∈ a.requeue.queue (.ready 0) := by
    rw [requeue]
    split_ifs
    · exact mem_enqueueThread.mpr (.inl ht)
    · exact ht
    · exact ht
  have hplaced := h.reschedule.toPlaced
  by_cases hcur : t = a.reschedule.currentThread
  · exact .inr (hcur ▸ hplaced.running)
  · refine .inl (hplaced.state (.ready 0) t ?_)
    rw [Plan.reschedule, currentThread_dispatch] at hcur
    rw [Plan.reschedule, queue_dispatch]
    rw [dequeueThread] at hcur ⊢
    split at hcur
    · exact hrequeue
    · next i hi =>
      obtain ⟨x, xs, hq⟩ := List.exists_cons_of_ne_nil (topLevel_some hi).2.1
      -- the head of a ready queue is alive, so the idle thread is not taken in its place
      have hx0 : ¬ x = 0 := by
        rintro rfl
        have hv := h.toSettled.requeue fun hr => absurd h.running hr
        have hal := hv.alive _ 0 (by rw [hq]; simp)
        rw [requeue] at hal
        split_ifs at hal <;> exact h.nonnull hal
      simp only [hq, List.headD_cons, successor, if_neg hx0] at hcur ⊢
      simp only [remove, update_apply]
      split_ifs with h0
      · exact (List.mem_erase_of_ne hcur).mpr (h0 ▸ hrequeue)
      · exact hrequeue

/-- A due sleeper with more than the slice of level 0 has it at level 0 after the tick. -/
theorem Resting.tick_long (h : a.Resting) (ht : t ∈ a.queue .sleeping)
    (hdue : (a.tcb t).wakeTime ≤ (a.systemTicks + 1) % 2 ^ 64) :
    (a.apicTimerHandler.tcb t).priority = 0 ∧
      (a.apicTimerHandler.tcb t).remainingTime = (a.tcb t).remainingTime ∧
      ((a.apicTimerHandler.tcb t).state = .ready ∨ (a.apicTimerHandler.tcb t).state = .running) := by
  -- the handler counts the tick before it compares wake times
  set b : Plan := { a with systemTicks := (a.systemTicks + 1) % 2 ^ 64 }
  have hrest : b.Resting := h.countSystemTick
  have hb : t ∈ b.queue .sleeping := ht
  obtain ⟨hprio, htime⟩ := slice_wakeSleepers (a := b) (hrest.nodup .sleeping) hb hdue
  obtain ⟨htcb, hmem⟩ := hrest.toPlaced.tickBody_top
    (mem_wakeSleepers (a := b) (hrest.nodup .sleeping) hb hdue)
  change (b.schedulerOnTick.tcb t).priority = 0 ∧ (b.schedulerOnTick.tcb t).remainingTime = _ ∧
    ((b.schedulerOnTick.tcb t).state = .ready ∨ (b.schedulerOnTick.tcb t).state = .running)
  rw [schedulerOnTick_eq hrest.toUnlocked]
  split_ifs
  · have hlock := hrest.tickBody.lockScheduler
    obtain ⟨e, he⟩ := b.tickBody.2.tcb_lockScheduler t
    obtain ⟨hp, hr⟩ := b.tickBody.2.lockScheduler.slice_reschedule t
    rw [tcb_unlockScheduler, hp, hr, he, htcb]
    exact ⟨hprio, htime, hlock.state_reschedule hmem⟩
  · have hready := hrest.tickBody.state (.ready 0) t hmem
    rw [htcb] at hready ⊢
    exact ⟨hprio, htime, .inl hready⟩

end LongSlices

theorem Sliced.createKernelThread (h : a.Sliced) : (a.createKernelThread t).Sliced := by
  intro x hx hidle
  by_cases hxt : x = t
  · rw [hxt, Plan.createKernelThread, tcb_enqueueThread_self]
    exact Thread.sliced_top rfl (by simp [newThread])
  · have hx' : x ∈ a.alive := by
      rcases Finset.mem_insert.mp hx with hx | hx
      · exact absurd hx hxt
      · exact hx
    rw [Plan.createKernelThread, tcb_enqueueThread_of_ne hxt]
    simp only [update_of_ne hxt]
    exact h x hx' hidle

theorem Resting.step_sliced (h : a.Resting) (ha : a.Sliced) (hshort : e = .tick → a.Short) :
    (a.step e).Sliced := by
  cases e with
  | tick => exact h.tick_sliced ha (hshort rfl)
  | createKernelThread t => exact ha.createKernelThread
  | createMutex m => exact ha
  | createSemaphore m maxCount => exact ha
  | detachTerminated => exact ha.lockScheduler
  | reapThread => exact fun t ht hidle => ha t (Finset.mem_of_mem_erase ht) hidle
  | threadSleep d =>
    rw [Plan.step, enterSleep_eq h.toUnlocked]
    exact Sliced.unlockScheduler (ha.blockOn fun _ => ⟨rfl, rfl⟩)
  | threadExit =>
    rw [Plan.step, enterExit_eq h.toUnlocked]
    exact Sliced.unlockScheduler (ha.blockOn fun _ => ⟨rfl, rfl⟩)
  | acquireMutex m =>
    rw [Plan.step, enterAcquireMutex_eq h.toUnlocked]
    split_ifs
    · exact ha.lockScheduler
    · exact Sliced.unlockScheduler (ha.blockOn fun _ => ⟨rfl, rfl⟩)
  | acquireSemaphore m =>
    rw [Plan.step, enterAcquireSemaphore_eq h.toUnlocked]
    split_ifs
    · exact ha.lockScheduler
    · exact Sliced.unlockScheduler (ha.blockOn fun _ => ⟨rfl, rfl⟩)
  | releaseMutex m =>
    rw [Plan.step]
    cases hq : a.queue (.mutex m) with
    | nil =>
      rw [enterReleaseMutex_nil h.toUnlocked hq]
      exact ha.lockScheduler
    | cons t ts =>
      rw [enterReleaseMutex_cons h.toUnlocked hq]
      have hpromote : Sliced { a.lockScheduler.promote (.mutex m) t with
        ownerThread := update a.ownerThread m t } := ha.lockScheduler.promote (p := .mutex m) (t := t)
      exact hpromote.reschedule.unlockScheduler
  | releaseSemaphore m =>
    rw [Plan.step]
    cases hq : a.queue (.semaphore m) with
    | nil =>
      rw [enterReleaseSemaphore_nil h.toUnlocked hq]
      split_ifs
      · exact ha.lockScheduler
      · exact ha.lockScheduler
    | cons t ts =>
      rw [enterReleaseSemaphore_cons h.toUnlocked hq]
      exact ha.lockScheduler.promote.reschedule.unlockScheduler

end Plan

section Results

/-- Every running or ready thread but the idle one is inside the slice of its level. -/
def SlicesKept (s : SchedState) : Prop :=
  ∀ t ∈ s.alive, t ≠ s.idleThread →
    ((s.tcb t).state = .running ∨ (s.tcb t).state = .ready) → (s.tcb t).Sliced

/-- If this is a tick, the sleepers it wakes have at most `FIRST_LIMIT` ticks left. -/
def Event.Short (e : Event) (s : SchedState) : Prop :=
  e = .tick → ∀ t ∈ s.alive, t ≠ s.idleThread → (s.tcb t).state = .sleeping →
    (s.tcb t).wakeTime ≤ (s.systemTicks + 1) % 2 ^ 64 → (s.tcb t).remainingTime ≤ firstLimit

def ShortStep (s s' : SchedState) : Prop :=
  ∃ e : Event, e.Allowed s ∧ e.Short s ∧ exec s e = .ok s'

variable {s s' : SchedState} {a : Plan} {e : Event} {root idle cleaner : ℕ}

theorem Steady.slicesKept (h : Steady s a) (ha : a.Sliced) : SlicesKept s := by
  rw [SlicesKept, h.rep.alive_eq, h.rep.idle_eq, h.rep.tcb_eq]
  exact fun t ht hidle _ => ha t ht hidle

theorem Steady.short (h : Steady s a) : e.Short s ↔ (e = .tick → a.Short) := by
  have hticks : s.systemTicks = a.systemTicks := congrArg Common.systemTicks h.rep.common
  rw [Event.Short, h.rep.alive_eq, h.rep.idle_eq, h.rep.tcb_eq, hticks]
  refine forall_congr' fun _ => ⟨fun hs t ht => ?_, fun hs t hal hidle hstate => ?_⟩
  · have hidle : t ≠ a.idleThread := fun he => h.resting.idle_free _ (he ▸ ht)
    obtain ⟨hal, hstate⟩ := (h.resting.sleeping_iff hidle).mp ht
    exact hs t hal hidle hstate
  · exact hs t ((h.resting.sleeping_iff hidle).mpr ⟨hal, hstate⟩)

theorem Steady.sliced_run (h : Steady s a) (ha : a.Sliced) (hr : ReflTransGen ShortStep s s') :
    ∃ a', Steady s' a' ∧ a'.Sliced := by
  induction hr with
  | refl => exact ⟨a, h, ha⟩
  | tail _ hstep ih =>
    obtain ⟨a', h', ha'⟩ := ih
    obtain ⟨e, he, hshort, hok⟩ := hstep
    exact ⟨_, h'.step he hok, h'.resting.step_sliced ha' (h'.short.mp hshort)⟩

theorem startPlan_sliced (hb : Boot s) (hm : Blocks root idle cleaner) :
    (startPlan s root idle cleaner).Sliced := by
  refine Plan.Sliced.createKernelThread fun t ht hidle => ?_
  rcases (mem_initialState hb).mp ht with rfl | rfl
  · exact absurd rfl hidle
  · have htcb : (initialPlan s t idle).tcb t = rootThread (s.tcb t) := by
      simp [initialPlan, initialState, hm.apart.1]
    rw [htcb]
    exact Thread.sliced_top rfl rfl

/-- While every wake-up finds at most `FIRST_LIMIT` ticks left, all slices are kept;
a tick that wakes a thread with more breaks the rule at once. -/
theorem slices_kept (hb : Boot s) (hm : Blocks root idle cleaner) :
    ∃ s₀, initializeMultitasking s root idle cleaner = .ok s₀ ∧
      ∀ s', ReflTransGen ShortStep s₀ s' → SlicesKept s' ∧
        ∀ s'', exec s' .tick = .ok s'' → (SlicesKept s'' ↔ Event.Short .tick s') := by
  obtain ⟨s₀, hs₀, h₀⟩ := initializeMultitasking_steady hb hm
  refine ⟨s₀, hs₀, fun s' hr => ?_⟩
  obtain ⟨a, h, ha⟩ := h₀.sliced_run (startPlan_sliced hb hm) hr
  refine ⟨h.slicesKept ha, fun s'' hok => ?_⟩
  have h'' : Steady s'' a.apicTimerHandler := h.step (e := .tick) ⟨by simp, trivial⟩ hok
  refine ⟨fun hkept => h.short.mpr fun _ t ht hdue => ?_,
    fun hshort => h''.slicesKept (h.resting.tick_sliced ha (h.short.mp hshort rfl))⟩
  obtain ⟨hprio, htime, hstate⟩ := h.resting.tick_long ht hdue
  have hsame := Plan.sameObjects_apicTimerHandler h.resting.toUnlocked
  have halive : t ∈ s''.alive := by
    rw [h''.rep.alive_eq, hsame.alive]
    exact h.resting.alive _ t ht
  have hidle : t ≠ s''.idleThread := by
    rw [h''.rep.idle_eq, hsame.idleThread]
    exact fun he => h.resting.idle_free _ (he ▸ ht)
  have hs := hkept t halive hidle (by rw [h''.rep.tcb_eq]; exact hstate.symm)
  rw [h''.rep.tcb_eq, Thread.Sliced, hprio, htime] at hs
  exact hs.2

theorem Steady.follow_short (h : Steady s a) (es : List Event)
    (hes : Along Plan.step (fun a e => a.Allowed e ∧ (e = .tick → a.Short)) a es) :
    ∃ s', ReflTransGen ShortStep s s' ∧ Steady s' (es.foldl Plan.step a) := by
  refine hes.follow (fun h he => ?_) h
  obtain ⟨s', ⟨he', hs'⟩, h'⟩ := h.exists_step he.1
  exact ⟨s', ⟨_, he', h.short.mpr he.2, hs'⟩, h'⟩

/-- The root thread has slept and is awake again, and the next tick wakes nobody. -/
theorem slices_kept_sample :
    ∃ s₀ s' s'', initializeMultitasking zeroState 16 32 48 = .ok s₀ ∧ ReflTransGen ShortStep s₀ s' ∧
      (s'.tcb 16).state = .ready ∧ SlicesKept s' ∧ exec s' .tick = .ok s'' ∧ SlicesKept s'' := by
  obtain ⟨s₀, hs₀, hrun⟩ := slices_kept zeroState_boot sampleBlocks
  obtain ⟨s, hs, h₀⟩ := initializeMultitasking_steady zeroState_boot sampleBlocks
  cases hs.symm.trans hs₀
  obtain ⟨s', hr, h⟩ := h₀.follow_short (idleEvents ++ [.tick]) (by decide)
  obtain ⟨hkept, htick⟩ := hrun s' hr
  obtain ⟨s'', ⟨-, hok⟩, -⟩ := h.exists_step (e := .tick) (by decide)
  refine ⟨s₀, s', s'', hs₀, hr, ?_, hkept, hok, (htick s'' hok).mpr (h.short.mpr ?_)⟩
  · rw [h.rep.tcb_eq]
    decide
  · decide

/-- The root thread uses up its first slice, the cleaner goes to sleep, and the root
sleeps with a full slice of level 1 ahead of it. -/
def longEvents : List Event :=
  List.replicate 10 .tick ++ [.threadSleep 2000, .threadSleep 1, .tick]

theorem long_slice_at_top :
    ∃ s₀ s', initializeMultitasking zeroState 16 32 48 = .ok s₀ ∧ ReflTransGen Step s₀ s' ∧
      (s'.tcb 16).state = .ready ∧ (s'.tcb 16).priority = 0 ∧
      (s'.tcb 16).remainingTime = secondLimit ∧ ¬ SlicesKept s' := by
  obtain ⟨s₀, hs₀, h₀⟩ := initializeMultitasking_steady zeroState_boot sampleBlocks
  obtain ⟨s', hr, h⟩ := h₀.follow longEvents (by decide +kernel)
  have htcb := h.rep.tcb_eq
  have hstate : (s'.tcb 16).state = .ready := by rw [htcb]; decide +kernel
  have hprio : (s'.tcb 16).priority = 0 := by rw [htcb]; decide +kernel
  have htime : (s'.tcb 16).remainingTime = secondLimit := by rw [htcb]; decide +kernel
  have halive : 16 ∈ s'.alive := by rw [h.rep.alive_eq]; decide +kernel
  have hidle : 16 ≠ s'.idleThread := by rw [h.rep.idle_eq]; decide +kernel
  refine ⟨s₀, s', hs₀, hr, hstate, hprio, htime, fun hkept => ?_⟩
  have hs := (hkept 16 halive hidle (.inr hstate)).2
  rw [hprio, htime] at hs
  exact absurd hs (by decide)

end Results

end KallarOS.Sched
