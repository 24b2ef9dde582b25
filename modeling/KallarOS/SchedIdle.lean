import KallarOS.SchedRuns

namespace KallarOS.Sched
open Function Relation

namespace Plan

variable {a b : Plan} {t : ℕ} {e : Event}

/-- The idle thread runs only when nobody is ready. -/
def Conserving (a : Plan) : Prop :=
  a.currentThread = a.idleThread → ∀ i < 3, a.queue (.ready i) = []

section Switches

theorem Vacant.conserving (h : a.Vacant) (h0 : 0 ∉ a.alive) :
    (a.dequeueThread.2.dispatch a.dequeueThread.2.currentThread
      (a.dequeueThread.2.successor a.dequeueThread.1)).Conserving := by
  intro hidle i hi
  rw [currentThread_dispatch, idleThread_dispatch] at hidle
  rw [queue_dispatch]
  rw [dequeueThread] at hidle ⊢
  cases htop : a.topLevel with
  | none => exact topLevel_none htop i hi
  | some j =>
    obtain ⟨t, ts, hq⟩ := List.exists_cons_of_ne_nil (topLevel_some htop).2.1
    have hmem : t ∈ a.queue (.ready j) := by simp [hq]
    have ht0 : ¬ t = 0 := fun he => h0 (he ▸ h.alive _ t hmem)
    simp only [htop, hq, List.headD_cons, successor, if_neg ht0] at hidle
    have hidle' : t = a.idleThread := hidle
    exact absurd (hidle' ▸ hmem) (h.idle_free _)

/-- `yield` chooses the idle thread only when the ready queues are empty. -/
theorem Settled.reschedule_conserving (h : a.Settled) (h0 : 0 ∉ a.alive)
    (hcur : (a.tcb a.currentThread).state ≠ .running → ∃ p, a.currentThread ∈ a.queue p) :
    a.reschedule.Conserving := by
  refine (h.requeue hcur).conserving ?_
  rw [Plan.requeue]
  simp only
  split_ifs <;> exact h0

theorem Leaving.reschedule_conserving (h : a.Leaving) : a.reschedule.Conserving :=
  h.toSettled.reschedule_conserving h.nonnull fun hr => absurd h.running hr

theorem Resting.blockOn_conserving {p : Place} {f : Thread → Thread} (h : a.Resting)
    (hp : a.Parks p f) : (a.blockOn p f).Conserving :=
  (h.toPlaced.parked hp).reschedule_conserving h.nonnull fun _ => ⟨p, mem_parked⟩

theorem conserving_of_busy (h : a.currentThread ≠ a.idleThread) : a.Conserving :=
  fun hidle => absurd hidle h

theorem Conserving.unlockScheduler (h : a.Conserving) : a.unlockScheduler.Conserving := h

end Switches

section Waking

theorem wakeSleepers_of_early {ts : List ℕ}
    (h : ∀ t ∈ ts, a.systemTicks < (a.tcb t).wakeTime) : wakeSleepers ts a = a := by
  induction ts with
  | nil => rfl
  | cons t ts ih =>
    rw [wakeSleepers, if_neg (not_le.mpr (h t (by simp)))]
    exact ih fun x hx => h x (by simp [hx])

theorem tcb_lift_of_ne {x : ℕ} {p : Place} {f : Thread → Thread} (hx : x ≠ t) :
    (a.lift p t f).tcb x = a.tcb x := by
  rw [lift, tcb_enqueueThread_of_ne hx, tcb_remove, tcb_modify_of_ne hx]

theorem mem_ready_wakeSleepers {ts : List ℕ} (ht : t ∈ a.queue (.ready 0)) :
    t ∈ (wakeSleepers ts a).queue (.ready 0) := by
  induction ts generalizing a with
  | nil => exact ht
  | cons x ts ih =>
    rw [wakeSleepers]
    split_ifs
    · refine ih (mem_enqueueThread.mpr (.inl ?_))
      simpa [remove, update_of_ne] using ht
    · exact ih ht

/-- A due sleeper ends in the top ready queue. -/
theorem mem_wakeSleepers {ts : List ℕ} (hts : ts.Nodup) (ht : t ∈ ts)
    (hdue : (a.tcb t).wakeTime ≤ a.systemTicks) : t ∈ (wakeSleepers ts a).queue (.ready 0) := by
  induction ts generalizing a with
  | nil => simp at ht
  | cons x ts ih =>
    obtain ⟨hx, hts⟩ := List.nodup_cons.mp hts
    rw [wakeSleepers]
    by_cases htx : t = x
    · rw [if_pos (htx ▸ hdue)]
      exact mem_ready_wakeSleepers (mem_enqueueThread.mpr (.inr ⟨htx, rfl⟩))
    · have ht : t ∈ ts := by simpa [htx] using ht
      split_ifs
      · exact ih hts ht (by rw [tcb_lift_of_ne htx]; exact hdue)
      · exact ih hts ht hdue

end Waking

section Ticks

/-- No sleeper is due at the next tick. -/
def Early (a : Plan) : Prop :=
  ∀ t ∈ a.queue .sleeping, (a.systemTicks + 1) % 2 ^ 64 < (a.tcb t).wakeTime

/-- A tick that finds the idle thread running is harmless when it wakes nobody or
is the hundredth. -/
theorem Resting.tick_conserving (h : a.Resting) (ha : a.Conserving)
    (hidle : a.currentThread = a.idleThread) :
    a.apicTimerHandler.Conserving ↔ a.Early ∨ 100 ≤ inc8 a.counter := by
  set b : Plan := { a with systemTicks := (a.systemTicks + 1) % 2 ^ 64 } with hb
  have hrest : b.Resting := h.countSystemTick
  have hframe := tickFrame_wakeSleepers (b.queue .sleeping) b
  have hcur : (wakeSleepers (b.queue .sleeping) b).currentThread =
      (wakeSleepers (b.queue .sleeping) b).idleThread := by
    rw [hframe]
    exact hidle
  have hcounter : (wakeSleepers (b.queue .sleeping) b).counter = a.counter := by
    have hcount : ∀ (ts : List ℕ) (c : Plan), (wakeSleepers ts c).counter = c.counter := by
      intro ts
      induction ts with
      | nil => exact fun _ => rfl
      | cons t ts ih =>
        intro c
        rw [wakeSleepers]
        split_ifs
        · exact ih _
        · exact ih _
    exact hcount _ _
  have hbody : b.tickBody = (wakeSleepers (b.queue .sleeping) b).idleTick := if_pos hcur
  change b.schedulerOnTick.Conserving ↔ _
  rw [schedulerOnTick_eq hrest.toUnlocked]
  by_cases hc : 100 ≤ inc8 a.counter
  · have hyield : b.tickBody.1 = true := by
      rw [hbody, idleTick]
      simp only [countTick, hcounter, if_pos hc]
    rw [if_pos hyield]
    exact ⟨fun _ => .inr hc,
      fun _ => hrest.tickBody.lockScheduler.reschedule_conserving.unlockScheduler⟩
  · have hstay : b.tickBody = (false, (wakeSleepers (b.queue .sleeping) b).countTick) := by
      rw [hbody, idleTick]
      simp only [countTick, hcounter, if_neg hc]
    rw [hstay, if_neg Bool.false_ne_true]
    simp only [hc, or_false]
    refine ⟨fun hcons t ht => ?_, fun hearly => ?_⟩
    -- a woken thread is ready at level 0 while the idle thread keeps the CPU
    · by_contra hdue
      have hmem := mem_wakeSleepers (a := b) (h.nodup .sleeping) ht (not_lt.mp hdue)
      have hnil := hcons hcur 0 (by omega)
      change (wakeSleepers (b.queue .sleeping) b).queue (.ready 0) = [] at hnil
      rw [hnil] at hmem
      cases hmem
    · rw [wakeSleepers_of_early (a := b) hearly]
      exact ha

theorem Resting.tick_conserving_busy (h : a.Resting) (hbusy : a.currentThread ≠ a.idleThread) :
    a.apicTimerHandler.Conserving := by
  have hrest := h.countSystemTick
  rw [apicTimerHandler, schedulerOnTick_eq hrest.toUnlocked]
  split_ifs
  · exact hrest.tickBody.lockScheduler.reschedule_conserving.unlockScheduler
  · refine conserving_of_busy ?_
    rw [tickFrame_tickBody]
    exact hbusy

end Ticks

/-- The condition on a step: a tick taken by the idle thread wakes nobody or is the
hundredth since the last boost. -/
def Timely (a : Plan) (e : Event) : Prop :=
  e = .tick → a.currentThread = a.idleThread → a.Early ∨ 100 ≤ inc8 a.counter

instance (a : Plan) (e : Event) : Decidable (a.Timely e) :=
  inferInstanceAs (Decidable (_ → _ → (∀ t ∈ _, _ < _) ∨ _ ≤ _))

theorem Resting.step_conserving (h : a.Resting) (he : a.Allowed e) (ha : a.Conserving)
    (htime : a.Timely e) : (a.step e).Conserving := by
  have hfits := he.fits
  cases e with
  | tick =>
    by_cases hidle : a.currentThread = a.idleThread
    · exact (h.tick_conserving ha hidle).mpr (htime rfl hidle)
    · exact h.tick_conserving_busy hidle
  | createKernelThread t => exact conserving_of_busy (he.busy (by simp))
  | createMutex m => exact conserving_of_busy (he.busy (by simp))
  | createSemaphore m maxCount => exact conserving_of_busy (he.busy (by simp))
  | detachTerminated => exact conserving_of_busy (he.busy (by simp))
  | reapThread => exact conserving_of_busy (he.busy (by simp))
  | threadSleep d =>
    rw [Plan.step, enterSleep_eq h.toUnlocked]
    exact (h.blockOn_conserving (parks_sleeping (he.busy (by simp)) _)).unlockScheduler
  | threadExit =>
    rw [Plan.step, enterExit_eq h.toUnlocked]
    exact (h.blockOn_conserving (parks_terminated (he.busy (by simp)))).unlockScheduler
  | acquireMutex m =>
    rw [Plan.step, enterAcquireMutex_eq h.toUnlocked]
    split_ifs
    · exact conserving_of_busy (he.busy (by simp))
    · exact (h.blockOn_conserving (parks_mutex (he.busy (by simp)) hfits)).unlockScheduler
  | acquireSemaphore m =>
    rw [Plan.step, enterAcquireSemaphore_eq h.toUnlocked]
    split_ifs
    · exact conserving_of_busy (he.busy (by simp))
    · exact (h.blockOn_conserving (parks_semaphore (he.busy (by simp)) hfits)).unlockScheduler
  | releaseMutex m =>
    rw [Plan.step]
    cases hq : a.queue (.mutex m) with
    | nil =>
      rw [enterReleaseMutex_nil h.toUnlocked hq]
      exact conserving_of_busy (he.busy (by simp))
    | cons t ts =>
      rw [enterReleaseMutex_cons h.toUnlocked hq]
      exact ((h.promoted (p := .mutex m) (t := t) (by simp [hq])).withOwner
        _).reschedule_conserving.unlockScheduler
  | releaseSemaphore m =>
    rw [Plan.step]
    cases hq : a.queue (.semaphore m) with
    | nil =>
      rw [enterReleaseSemaphore_nil h.toUnlocked hq]
      split_ifs
      · exact conserving_of_busy (he.busy (by simp))
      · exact conserving_of_busy (he.busy (by simp))
    | cons t ts =>
      rw [enterReleaseSemaphore_cons h.toUnlocked hq]
      exact (h.promoted (p := .semaphore m) (t := t)
        (by simp [hq])).reschedule_conserving.unlockScheduler

end Plan

section Results

/-- While the idle thread is current, all three ready queues are empty. -/
def WorkConserving (s : SchedState) : Prop :=
  s.currentThread = s.idleThread → ∀ i < 3, s.firstReady i = 0

/-- If this is a tick and the idle thread is current, then the tick wakes no sleeper
or brings the boost counter to 100. -/
def Event.Timely (e : Event) (s : SchedState) : Prop :=
  e = .tick → s.currentThread = s.idleThread →
    (∀ t ∈ s.alive, t ≠ s.idleThread → (s.tcb t).state = .sleeping →
      (s.systemTicks + 1) % 2 ^ 64 < (s.tcb t).wakeTime) ∨ 100 ≤ inc8 s.counter

def TimelyStep (s s' : SchedState) : Prop :=
  ∃ e : Event, e.Allowed s ∧ e.Timely s ∧ exec s e = .ok s'

variable {s s' : SchedState} {a : Plan} {e : Event} {root idle cleaner : ℕ}

theorem Rep.conserving (h : Rep s a) : WorkConserving s ↔ a.Conserving := by
  rw [WorkConserving, Plan.Conserving, h.current_eq, h.idle_eq]
  exact forall_congr' fun _ => forall_congr' fun i => forall_congr' fun _ => h.firstReady_eq_zero i

/-- The sleepers are the threads of the sleeping queue. -/
theorem Plan.Placed.sleeping_iff (h : a.Placed) {t : ℕ} (hidle : t ≠ a.idleThread) :
    t ∈ a.queue .sleeping ↔ t ∈ a.alive ∧ (a.tcb t).state = .sleeping := by
  refine ⟨fun ht => ⟨h.alive _ t ht, h.state _ t ht⟩, fun ⟨hal, hs⟩ => ?_⟩
  have hcur : t ≠ a.currentThread := fun he => by
    have hrun := h.running
    rw [← he, hs] at hrun
    cases hrun
  obtain ⟨p, hp⟩ := h.waits t hal hidle hcur
  have hstate := h.state p t hp
  rw [hs] at hstate
  cases p <;> simp at hstate
  exact hp

theorem Steady.timely (h : Steady s a) : e.Timely s ↔ a.Timely e := by
  have hticks : s.systemTicks = a.systemTicks := congrArg Common.systemTicks h.rep.common
  rw [Event.Timely, Plan.Timely, h.rep.current_eq, h.rep.idle_eq, h.rep.counter_eq, h.rep.alive_eq,
    h.rep.tcb_eq, hticks]
  refine forall_congr' fun _ => forall_congr' fun _ => or_congr_left ⟨fun hs t ht => ?_,
    fun hs t hal hidle hstate => ?_⟩
  · have hidle : t ≠ a.idleThread := fun he => h.resting.idle_free _ (he ▸ ht)
    obtain ⟨hal, hstate⟩ := (h.resting.sleeping_iff hidle).mp ht
    exact hs t hal hidle hstate
  · exact hs t ((h.resting.sleeping_iff hidle).mpr ⟨hal, hstate⟩)

theorem Steady.conserving_run (h : Steady s a) (ha : a.Conserving)
    (hr : ReflTransGen TimelyStep s s') : ∃ a', Steady s' a' ∧ a'.Conserving := by
  induction hr with
  | refl => exact ⟨a, h, ha⟩
  | tail _ hstep ih =>
    obtain ⟨a', h', ha'⟩ := ih
    obtain ⟨e, he, htime, hok⟩ := hstep
    exact ⟨_, h'.step he hok,
      h'.resting.step_conserving (h'.rep.allowed.mp he) ha' (h'.timely.mp htime)⟩

/-- In a run whose idle ticks are all timely the idle thread never keeps the CPU
from a ready thread; an idle tick that is not timely always ends with one waiting. -/
theorem idle_only_when_none_ready (hb : Boot s) (hm : Blocks root idle cleaner) :
    ∃ s₀, initializeMultitasking s root idle cleaner = .ok s₀ ∧
      ∀ s', ReflTransGen TimelyStep s₀ s' → WorkConserving s' ∧
        (s'.currentThread = s'.idleThread → ∀ s'', exec s' .tick = .ok s'' →
          (WorkConserving s'' ↔ Event.Timely .tick s')) := by
  obtain ⟨s₀, hs₀, h₀⟩ := initializeMultitasking_steady hb hm
  refine ⟨s₀, hs₀, fun s' hr => ?_⟩
  have hbusy : (startPlan s root idle cleaner).Conserving := Plan.conserving_of_busy hm.apart.1
  obtain ⟨a, h, ha⟩ := h₀.conserving_run hbusy hr
  refine ⟨h.rep.conserving.mpr ha, fun hidle s'' hok => ?_⟩
  have h'' := h.step (e := .tick) ⟨by simp, trivial⟩ hok
  rw [h''.rep.conserving, h.timely]
  rw [h.rep.current_eq, h.rep.idle_eq] at hidle
  exact (h.resting.tick_conserving ha hidle).trans ⟨fun hc _ _ => hc, fun hc => hc rfl hidle⟩

theorem Steady.follow_timely (h : Steady s a) (es : List Event)
    (hes : Along Plan.step (fun a e => a.Allowed e ∧ a.Timely e) a es) :
    ∃ s', ReflTransGen TimelyStep s s' ∧ Steady s' (es.foldl Plan.step a) := by
  refine hes.follow (fun h he => ?_) h
  obtain ⟨s', ⟨he', hs'⟩, h'⟩ := h.exists_step he.1
  exact ⟨s', ⟨_, he', h.timely.mpr he.2, hs'⟩, h'⟩

/-- The last runnable thread goes to sleep too, and a tick finds the idle thread. -/
def idleEvents : List Event := sampleEvents ++ [.threadSleep 5, .tick]

/-- The tick after these wakes the root thread. -/
theorem idle_only_when_none_ready_sample :
    ∃ s₀ s', initializeMultitasking zeroState 16 32 48 = .ok s₀ ∧ ReflTransGen TimelyStep s₀ s' ∧
      s'.currentThread = s'.idleThread ∧ (∀ i < 3, s'.firstReady i = 0) ∧
      ∀ s'', exec s' .tick = .ok s'' → ¬ WorkConserving s'' := by
  obtain ⟨s₀, hs₀, hrun⟩ := idle_only_when_none_ready zeroState_boot sampleBlocks
  obtain ⟨s, hs, h₀⟩ := initializeMultitasking_steady zeroState_boot sampleBlocks
  cases hs.symm.trans hs₀
  obtain ⟨s', hr, h⟩ := h₀.follow_timely idleEvents (by decide)
  obtain ⟨hcons, htick⟩ := hrun s' hr
  have hidle : s'.currentThread = s'.idleThread := by
    rw [h.rep.current_eq, h.rep.idle_eq]
    decide
  have huntimely : ¬ Event.Timely .tick s' := by
    rw [h.timely]
    decide
  exact ⟨s₀, s', hs₀, hr, hidle, hcons hidle, fun s'' hok => (htick hidle s'' hok).not.mpr huntimely⟩

/-- The root thread sleeps for one tick and the cleaner for 2000; the tick makes the
root ready and leaves the idle thread running. -/
def wakeEvents : List Event := [.threadSleep 1, .threadSleep 2000, .tick]

theorem idle_keeps_cpu :
    ∃ s₀ s', initializeMultitasking zeroState 16 32 48 = .ok s₀ ∧ ReflTransGen Step s₀ s' ∧
      s'.currentThread = 32 ∧ s'.idleThread = 32 ∧ s'.firstReady 0 = 16 ∧ ¬ WorkConserving s' := by
  obtain ⟨s₀, hs₀, h₀⟩ := initializeMultitasking_steady zeroState_boot sampleBlocks
  obtain ⟨s', hr, h⟩ := h₀.follow wakeEvents (by decide)
  have hcur : s'.currentThread = 32 := h.rep.current_eq.trans (by decide)
  have hidle : s'.idleThread = 32 := h.rep.idle_eq.trans (by decide)
  have hready : s'.firstReady 0 = 16 := by
    have hq : (wakeEvents.foldl Plan.step (startPlan zeroState 16 32 48)).queue (.ready 0) = [16] := by
      decide
    exact h.rep.queues.head_of_cons (i := .ready 0) hq
  refine ⟨s₀, s', hs₀, hr, hcur, hidle, hready, fun hcons => ?_⟩
  have h0 := hcons (hcur.trans hidle.symm) 0 (by omega)
  rw [hready] at h0
  cases h0

end Results

end KallarOS.Sched
