import KallarOS.SchedTimer

namespace KallarOS.Sched
open Function Chains Relation

/-- The queues when `yield` has put a running caller back and not yet taken a successor. -/
def requeued (c : Common) (q : Place → List ℕ) : Place → List ℕ :=
  if (c.tcb c.currentThread).state = .running ∧ c.currentThread ≠ c.idleThread then
    update q (.ready (c.tcb c.currentThread).priority)
      (q (.ready (c.tcb c.currentThread).priority) ++ [c.currentThread])
  else q

namespace Plan

variable {a : Plan} {t x : ℕ} {p : Place} {f : Thread → Thread}

/-- A state in which `yield` may be called: a caller that does not run any more has
gone to a queue before. -/
structure Yielding (a : Plan) : Prop extends Settled a where
  nonnull : 0 ∉ a.alive
  queued : (a.tcb a.currentThread).state ≠ .running → ∃ p, a.currentThread ∈ a.queue p
  postpone : a.postponeSwitchesCounter = 0

theorem Placed.yielding (h : a.Placed) (h0 : 0 ∉ a.alive) (hp : a.postponeSwitchesCounter = 0) :
    a.Yielding := ⟨h.toSettled, h0, fun hr => absurd h.running hr, hp⟩

theorem Resting.yielding_parked (h : a.Resting) (hp : a.Parks p f) : (a.parked p f).Yielding :=
  ⟨h.toPlaced.parked hp, h.nonnull, fun _ => ⟨p, mem_parked⟩, h.postpone⟩

theorem queue_requeue_eq (a : Plan) : a.requeue.queue = requeued a.toCommon a.queue := by
  rw [requeue, requeued]
  by_cases hrun : (a.tcb a.currentThread).state = .running
  · by_cases hidle : a.currentThread = a.idleThread
    · rw [if_pos hrun, if_neg (not_not.mpr hidle), if_neg fun hc => hc.2 hidle]
      rfl
    · rw [if_pos hrun, if_pos hidle, if_pos ⟨hrun, hidle⟩]
      rfl
  · rw [if_neg hrun, if_neg fun hc => hrun hc.1]

theorem tcb_dispatch_of_ne {prev next : ℕ} (hp : x ≠ prev) (hn : x ≠ next) :
    (a.dispatch prev next).tcb x = a.tcb x := by
  rw [dispatch]
  split_ifs
  · exact tcb_modify_of_ne hn
  · simp [switchToTask, modify, hp, hn]

theorem currentThread_requeue (a : Plan) : a.requeue.currentThread = a.currentThread := by
  rw [requeue]
  split_ifs <;> rfl

theorem currentThread_dequeueThread (a : Plan) :
    a.dequeueThread.2.currentThread = a.currentThread := by
  rw [dequeueThread]
  split <;> rfl

/-- Control blocks of threads that neither leave nor get the CPU. -/
theorem tcb_reschedule_of_ne (hx : x ≠ a.currentThread) (hx' : x ≠ a.reschedule.currentThread) :
    a.reschedule.tcb x = a.tcb x := by
  have hrequeue : a.requeue.tcb x = a.tcb x := by
    rw [requeue]
    split_ifs
    · rw [tcb_enqueueThread_of_ne hx, tcb_modify_of_ne hx]
    · rw [tcb_modify_of_ne hx]
    · rfl
  rw [reschedule, currentThread_dispatch] at hx'
  rw [reschedule, tcb_dispatch_of_ne ?_ hx', tcb_dequeueThread, hrequeue]
  rw [currentThread_dequeueThread, currentThread_requeue]
  exact hx

/-- The two ways a reschedule ends: with the idle thread when nothing is ready, else
with the head of the lowest-numbered non-empty queue. -/
theorem Yielding.reschedule_cases (h : a.Yielding) :
    ((∀ i < 3, requeued a.toCommon a.queue (.ready i) = []) ∧
      a.reschedule.currentThread = a.idleThread ∧
      a.reschedule.queue = requeued a.toCommon a.queue) ∨
    ∃ i < 3, ∃ t ts, requeued a.toCommon a.queue (.ready i) = t :: ts ∧
      (∀ j < i, requeued a.toCommon a.queue (.ready j) = []) ∧
      a.reschedule.currentThread = t ∧ (a.tcb t).priority = i ∧ t ≠ a.idleThread ∧
      a.reschedule.queue = update (requeued a.toCommon a.queue) (.ready i) ts := by
  have hv := h.toSettled.requeue h.queued
  have halive : a.requeue.alive = a.alive ∧ a.requeue.idleThread = a.idleThread := by
    rw [requeue]
    split_ifs <;> exact ⟨rfl, rfl⟩
  rw [← queue_requeue_eq, reschedule, currentThread_dispatch, queue_dispatch, dequeueThread]
  cases htop : a.requeue.topLevel with
  | none => exact .inl ⟨topLevel_none htop, halive.2, rfl⟩
  | some i =>
    obtain ⟨hi, hne, hlow⟩ := topLevel_some htop
    obtain ⟨t, ts, hq⟩ := List.exists_cons_of_ne_nil hne
    have hmem : t ∈ a.requeue.queue (.ready i) := by simp [hq]
    have ht0 : ¬ t = 0 := fun he => h.nonnull (halive.1 ▸ he ▸ hv.alive _ t hmem)
    have hprio : (a.tcb t).priority = i := by
      obtain ⟨st, hst⟩ := a.tcb_requeue t
      have hlevel := hv.level i t hmem
      rwa [hst] at hlevel
    refine .inr ⟨i, hi, t, ts, hq, hlow, ?_, hprio, ?_, ?_⟩
    · simp only [hq, List.headD_cons, successor, if_neg ht0]
    · intro he
      exact hv.idle_free _ (halive.2 ▸ he ▸ hmem)
    · simp only [hq, List.headD_cons, remove, List.erase_cons_head]

end Plan

section Law

variable {c c' : SchedState} {b : Plan}

/-- What `yield` does, called in `c` with the queues `q` and returning in `c'` with the
queues `q'`. -/
structure Dispatched (c : SchedState) (q : Place → List ℕ) (c' : SchedState)
    (q' : Place → List ℕ) : Prop where
  placement : Placement c' q'
  idle : c'.currentThread = c.idleThread ↔ ∀ i < 3, requeued c.toCommon q (.ready i) = []
  empty : (∀ i < 3, requeued c.toCommon q (.ready i) = []) → q' = requeued c.toCommon q
  head : ∀ i < 3, requeued c.toCommon q (.ready i) ≠ [] →
    (∀ j < i, requeued c.toCommon q (.ready j) = []) →
    requeued c.toCommon q (.ready i) = c'.currentThread :: q' (.ready i) ∧
      ∀ p, p ≠ .ready i → q' p = requeued c.toCommon q p
  caller : (c.tcb c.currentThread).state = .running → c.currentThread ≠ c.idleThread →
    c'.currentThread = c.currentThread ∨ ((c'.tcb c.currentThread).state = .ready ∧
      (q' (.ready (c.tcb c.currentThread).priority)).getLast? = some c.currentThread)
  best : ∀ i < 3, q' (.ready i) ≠ [] → c'.currentThread ≠ c.idleThread ∧
    (c'.tcb c'.currentThread).priority ≤ i
  waiting : ∀ p, (∀ i, p ≠ .ready i) → q' p = q p
  others : ∀ t, t ≠ c.currentThread → t ≠ c'.currentThread → c'.tcb t = c.tcb t
  fields : ∀ t, ∃ st e, c'.tcb t = { c.tcb t with state := st, frameEflags := e }

namespace Plan

theorem requeued_of_ne {p : Place} (a : Plan) (hp : ∀ i, p ≠ .ready i) :
    requeued a.toCommon a.queue p = a.queue p := by
  rw [requeued]
  split_ifs
  · exact update_of_ne (hp _) _ _
  · rfl

/-- A running caller is the last of its level when a successor is looked for. -/
theorem requeued_caller {a : Plan} (hrun : (a.tcb a.currentThread).state = .running)
    (hidle : a.currentThread ≠ a.idleThread) :
    requeued a.toCommon a.queue (.ready (a.tcb a.currentThread).priority) =
      a.queue (.ready (a.tcb a.currentThread).priority) ++ [a.currentThread] := by
  rw [requeued, if_pos ⟨hrun, hidle⟩, update_self]

/-- The caller is picked again or stays at the tail of its level. -/
theorem Yielding.caller_reschedule {a : Plan} (h : a.Yielding)
    (hrun : (a.tcb a.currentThread).state = .running) (hidle : a.currentThread ≠ a.idleThread)
    (hne : a.reschedule.currentThread ≠ a.currentThread) :
    (a.reschedule.queue (.ready (a.tcb a.currentThread).priority)).getLast? =
      some a.currentThread := by
  have htail := requeued_caller hrun hidle
  rcases h.reschedule_cases with ⟨hnil, -, -⟩ | ⟨i, -, t, ts, hq, -, hcur, -, -, hqueue⟩
  · rw [hnil _ (h.levels _ h.current)] at htail
    simp at htail
  · rw [hqueue]
    by_cases hi : i = (a.tcb a.currentThread).priority
    -- the queue it joined is the one served: it stands behind the thread that left
    · rw [← hi, update_self]
      rw [← hi, hq] at htail
      have hlast : (t :: ts).getLast? = some a.currentThread := by rw [htail]; simp
      cases ts with
      | nil =>
        simp only [List.getLast?_singleton, Option.some.injEq] at hlast
        exact absurd (hcur.trans hlast) hne
      | cons y ys => simpa [List.getLast?_cons] using hlast
    · rw [update_of_ne (by simpa using Ne.symm hi), htail]
      simp

/-- The idle thread runs next just when nothing is ready. -/
theorem Yielding.reschedule_idle_iff {a : Plan} (h : a.Yielding) :
    a.reschedule.currentThread = a.idleThread ↔
      ∀ i < 3, requeued a.toCommon a.queue (.ready i) = [] := by
  rcases h.reschedule_cases with ⟨hnil, hcur, -⟩ | ⟨i, hi, t, ts, hq, -, hcur, -, hidle, -⟩
  · exact ⟨fun _ => hnil, fun _ => hcur⟩
  · refine ⟨fun he => absurd (hcur.symm.trans he) hidle, fun hnil => ?_⟩
    rw [hnil i hi] at hq
    cases hq

/-- The head of the first queue that is not empty leaves it to run. -/
theorem Yielding.reschedule_head {a : Plan} (h : a.Yielding) {i : ℕ} (hi : i < 3)
    (hne : requeued a.toCommon a.queue (.ready i) ≠ [])
    (hlow : ∀ j < i, requeued a.toCommon a.queue (.ready j) = []) :
    requeued a.toCommon a.queue (.ready i) =
        a.reschedule.currentThread :: a.reschedule.queue (.ready i) ∧
      ∀ p, p ≠ .ready i → a.reschedule.queue p = requeued a.toCommon a.queue p := by
  rcases h.reschedule_cases with ⟨hnil, -⟩ | ⟨k, hk, t, ts, hq, hlow', hcur, -, -, hqueue⟩
  · exact absurd (hnil i hi) hne
  · have hik : i = k := by
      by_contra hik
      rcases Nat.lt_or_gt_of_ne hik with hlt | hlt
      · exact hne (hlow' i hlt)
      · rw [hlow k hlt] at hq
        cases hq
    subst hik
    refine ⟨?_, fun p hp => ?_⟩
    · rw [hqueue, update_self, hcur, hq]
    · rw [hqueue, update_of_ne hp]

/-- No thread that stays ready is of a better level than the one that runs. -/
theorem Yielding.reschedule_best {a : Plan} (h : a.Yielding) {i : ℕ} (hi : i < 3)
    (hne : a.reschedule.queue (.ready i) ≠ []) :
    a.reschedule.currentThread ≠ a.idleThread ∧
      (a.tcb a.reschedule.currentThread).priority ≤ i := by
  rcases h.reschedule_cases with
    ⟨hnil, -, hqueue⟩ | ⟨k, hk, t, ts, -, hlow, hcur, hprio, hidle, hqueue⟩
  · rw [hqueue] at hne
    exact absurd (hnil i hi) hne
  · refine ⟨hcur ▸ hidle, ?_⟩
    rw [hcur, hprio]
    by_contra hlt
    rw [hqueue, update_of_ne (by simp; omega), hlow i (by omega)] at hne
    exact hne rfl

end Plan

/-- The dispatch law, whatever made the caller yield. -/
theorem Rep.dispatched (hrep : Rep c b) (hb : b.Yielding) :
    ∃ c', Sched.yield c = .ok c' ∧ Dispatched c b.queue c' b.reschedule.queue := by
  have hplaced := hb.toSettled.reschedule hb.nonnull hb.queued
  have hyieldable : b.Yieldable := fun hrun _ =>
    ⟨fun p hp => hb.state_ne_running hp hrun, hb.levels _ hb.current⟩
  have hyield := hrep.yield hyieldable
  rw [Plan.yield_of_zero hb.postpone] at hyield
  obtain ⟨c', hc', hrep'⟩ := hyield
  refine ⟨c', hc', hrep'.placement hplaced, ?_, ?_, ?_, ?_, ?_, ?_, ?_, ?_⟩
  · rw [hrep.common, hrep'.current_eq]
    exact hb.reschedule_idle_iff
  · rw [hrep.common]
    intro hall
    rcases hb.reschedule_cases with ⟨-, -, hqueue⟩ | ⟨i, hi, t, ts, hq, -⟩
    · exact hqueue
    · rw [hall i hi] at hq
      cases hq
  · rw [hrep.common]
    intro i hi hne hlow
    rw [hrep'.current_eq]
    exact hb.reschedule_head hi hne hlow
  · rw [hrep.common]
    intro hrun hidle
    rw [hrep'.current_eq, hrep'.tcb_eq]
    by_cases hsame : b.reschedule.currentThread = b.currentThread
    · exact .inl hsame
    · have hlast := hb.caller_reschedule hrun hidle hsame
      exact .inr ⟨hplaced.state _ _ (List.mem_of_getLast? hlast), hlast⟩
  · rw [hrep.common]
    intro i hi hne
    obtain ⟨hidle, hprio⟩ := hb.reschedule_best hi hne
    obtain ⟨st, e, htcb⟩ := b.tcb_reschedule b.reschedule.currentThread
    rw [hrep'.current_eq, hrep'.tcb_eq, htcb]
    exact ⟨hidle, hprio⟩
  · intro p hp
    rcases hb.reschedule_cases with ⟨-, -, hqueue⟩ | ⟨k, -, t, ts, -, -, -, -, -, hqueue⟩
    · rw [hqueue, b.requeued_of_ne hp]
    · rw [hqueue, update_of_ne (hp k), b.requeued_of_ne hp]
  · rw [hrep.common]
    intro t ht ht'
    rw [hrep'.current_eq] at ht'
    rw [hrep'.tcb_eq]
    exact Plan.tcb_reschedule_of_ne ht ht'
  · rw [hrep.common]
    intro t
    rw [hrep'.tcb_eq]
    exact b.tcb_reschedule t

end Law

section YieldPoints

/-- What the lock operations do inside their atomic section. -/
def Event.lockedPart : Event → Option (SchedState → Outcome SchedState)
  | .acquireMutex m => some (takeMutex · m)
  | .releaseMutex m => some (giveMutex · m)
  | .acquireSemaphore m => some (takeToken · m)
  | .releaseSemaphore m => some (giveToken · m)
  | _ => none

/-- The current thread of `s` calls `yield` in state `c`: directly, with the lock held,
from a tick, going to sleep, exiting, or at the end of an atomic section that owes a
yield. -/
inductive YieldPoint (s : SchedState) : SchedState → Prop
  | direct : YieldPoint s s
  | locked {c : SchedState} (hc : lockScheduler s = .ok c) : YieldPoint s c
  | tick {b c : SchedState}
      (hb : tickBody { s with systemTicks := (s.systemTicks + 1) % 2 ^ 64 } = .ok (true, b))
      (hc : lockScheduler b = .ok c) : YieldPoint s c
  | sleep {requestedTime : ℕ} {c : SchedState} (he : (Event.threadSleep requestedTime).Allowed s)
      (hc : queueSleeper s requestedTime = .ok c) : YieldPoint s c
  | exit {c : SchedState} (he : Event.threadExit.Allowed s) (hc : queueTerminated s = .ok c) :
      YieldPoint s c
  | leave {e : Event} {f : SchedState → Outcome SchedState} {b b' : SchedState} (he : e.Allowed s)
      (hf : e.lockedPart = some f) (hb : lockAtomic s = .ok b) (hb' : f b = .ok b')
      (hlast : dec8 b'.postponeSwitchesCounter = 0) (howed : b'.postponedYieldFlag = 1) :
      YieldPoint s { b' with
        postponeSwitchesCounter := dec8 b'.postponeSwitchesCounter
        postponedYieldFlag := 0 }

namespace Plan

variable {a b : Plan} {m t : ℕ} {ts : List ℕ}

/-- Inside an atomic section of depth 1: no yield is owed, or one by a state in which
`yield` may be called. -/
def Owes (x : Plan) : Prop :=
  x.postponedYieldFlag = 0 ∨ ∃ b : Plan, b.Yielding ∧ b.postponedYieldFlag = 0 ∧
    x = { b with postponeSwitchesCounter := 1, postponedYieldFlag := 1 }

theorem Yielding.owes (h : b.Yielding) (hf : b.postponedYieldFlag = 0) :
    Owes { b with postponeSwitchesCounter := 1, postponedYieldFlag := 1 } := .inr ⟨b, h, hf, rfl⟩

theorem Leaving.yielding (h : a.Leaving) : a.Yielding := h.toPlaced.yielding h.nonnull h.postpone

theorem Resting.yielding (h : a.Resting) : a.Yielding := h.toPlaced.yielding h.nonnull h.postpone

theorem Resting.owes_takeMutex (h : a.Resting) (hbusy : a.currentThread ≠ a.idleThread)
    (hm : m ∈ a.mutexes) : (a.lockAtomic.takeMutex m).Owes := by
  rw [lockAtomic_eq h.toUnlocked, takeMutex]
  split_ifs
  · exact .inl h.flag
  · exact (h.yielding_parked (parks_mutex hbusy hm)).owes h.flag

theorem Resting.owes_takeToken (h : a.Resting) (hbusy : a.currentThread ≠ a.idleThread)
    (hm : m ∈ a.semaphores) : (a.lockAtomic.takeToken m).Owes := by
  rw [lockAtomic_eq h.toUnlocked, takeToken]
  split_ifs
  · exact .inl h.flag
  · exact (h.yielding_parked (parks_semaphore hbusy hm)).owes h.flag

theorem Resting.owes_giveMutex (h : a.Resting) (m : ℕ) : (a.lockAtomic.giveMutex m).Owes := by
  rw [lockAtomic_eq h.toUnlocked, giveMutex]
  cases hq : a.queue (.mutex m) with
  | nil =>
    have hq' : a.lockScheduler.queue (.mutex m) = [] := hq
    simp only [hq']
    exact .inl h.flag
  | cons t ts =>
    have hq' : a.lockScheduler.queue (.mutex m) = t :: ts := hq
    have hmem : t ∈ a.queue (.mutex m) := by simp [hq]
    simp only [hq']
    exact ((h.promoted hmem).withOwner _).yielding.owes h.flag

theorem Resting.owes_giveToken (h : a.Resting) (m : ℕ) : (a.lockAtomic.giveToken m).Owes := by
  rw [lockAtomic_eq h.toUnlocked, giveToken]
  cases hq : a.queue (.semaphore m) with
  | nil =>
    have hq' : a.lockScheduler.queue (.semaphore m) = [] := hq
    simp only [hq']
    split_ifs
    · exact .inl h.flag
    · exact .inl h.flag
  | cons t ts =>
    have hq' : a.lockScheduler.queue (.semaphore m) = t :: ts := hq
    have hmem : t ∈ a.queue (.semaphore m) := by simp [hq]
    simp only [hq']
    exact (h.promoted hmem).yielding.owes h.flag

end Plan

variable {s c : SchedState} {a : Plan}

/-- The end of the section calls `yield` in the state that owes it. -/
theorem Rep.leave_owed {x : Plan} (h : Rep s x) (hx : x.Owes)
    (hlast : dec8 s.postponeSwitchesCounter = 0) (hf : s.postponedYieldFlag = 1) :
    ∃ b, Rep { s with
      postponeSwitchesCounter := dec8 s.postponeSwitchesCounter
      postponedYieldFlag := 0 } b ∧ b.Yielding := by
  have hflag : x.postponedYieldFlag = 1 := (congrArg Common.postponedYieldFlag h.common).symm.trans hf
  rcases hx with h0 | ⟨b, hb, hbf, rfl⟩
  · rw [h0] at hflag
    cases hflag
  · refine ⟨b, ?_, hb⟩
    have hclear := h.mapCommon (fun c => { c with
      postponeSwitchesCounter := 0, postponedYieldFlag := 0 }) (fun _ => rfl) (fun _ => rfl) fun _ => rfl
    have hsame := Plan.reset_unlocked hb.postpone hbf
    rw [hlast]
    exact Eq.mp (congrArg (Rep _) hsame) hclear

theorem Refines.rep {x : Outcome SchedState} (h : Refines x a) (hs : x = .ok s) : Rep s a := by
  obtain ⟨s', hs', hrep⟩ := h
  cases hs'.symm.trans hs
  exact hrep

theorem YieldPoint.yielding (hc : YieldPoint s c) (h : Steady s a) : ∃ b, Rep c b ∧ b.Yielding := by
  have hfree := h.resting.toPlaced.free
  have hrest := h.resting
  cases hc with
  | direct => exact ⟨a, h.rep, hrest.yielding⟩
  | locked hc => exact ⟨_, h.rep.lockScheduler.rep hc, hrest.lockScheduler.yielding⟩
  | tick hb hc =>
    obtain ⟨b', hb', hrep⟩ := h.rep.countSystemTick.tickBody
    obtain ⟨-, rfl⟩ := Prod.mk.inj (Except.ok.inj (hb'.symm.trans hb))
    exact ⟨_, hrep.lockScheduler.rep hc, hrest.countSystemTick.tickBody.lockScheduler.yielding⟩
  | sleep he hc =>
    have hbusy := (h.rep.allowed.mp he).busy (by simp)
    exact ⟨_, (h.rep.queueSleeper hfree _).rep hc, hrest.yielding_parked (Plan.parks_sleeping hbusy _)⟩
  | exit he hc =>
    have hbusy := (h.rep.allowed.mp he).busy (by simp)
    exact ⟨_, (h.rep.queueTerminated hfree).rep hc,
      hrest.yielding_parked (Plan.parks_terminated hbusy)⟩
  | @leave e f b b' he hf hb hb' hlast howed =>
    have hrep := h.rep.lockAtomic.rep hb
    have he := h.rep.allowed.mp he
    have hlevels : ∀ t ∈ a.lockAtomic.alive, (a.lockAtomic.tcb t).priority < 3 :=
      hrest.lockScheduler.levels
    have hruns := hrest.toPlaced.runs.lockAtomic
    cases e with
    | acquireMutex m =>
      cases hf
      exact ((hrep.takeMutex hfree m).rep hb').leave_owed
        (hrest.owes_takeMutex (he.busy (by simp)) he.fits) hlast howed
    | releaseMutex m =>
      cases hf
      exact ((hrep.giveMutex hruns hlevels m).rep hb').leave_owed (hrest.owes_giveMutex m) hlast howed
    | acquireSemaphore m =>
      cases hf
      exact ((hrep.takeToken hfree m).rep hb').leave_owed
        (hrest.owes_takeToken (he.busy (by simp)) he.fits) hlast howed
    | releaseSemaphore m =>
      cases hf
      exact ((hrep.giveToken hruns hlevels m).rep hb').leave_owed (hrest.owes_giveToken m) hlast howed
    | _ => cases hf

/-- In every state in which a reachable scheduler calls `yield` outside atomic
sections, the call returns and obeys the dispatch law. -/
theorem yield_dispatches {root idle cleaner : ℕ} (hb : Boot s) (hm : Blocks root idle cleaner) :
    ∃ s₀, initializeMultitasking s root idle cleaner = .ok s₀ ∧
      ∀ s' c, ReflTransGen Step s₀ s' → YieldPoint s' c →
        ∃ q c' q', (∀ p, Linked 0 c.next (c.head p) (q p)) ∧ yield c = .ok c' ∧
          Dispatched c q c' q' := by
  obtain ⟨s₀, hs₀, h₀⟩ := initializeMultitasking_steady hb hm
  refine ⟨s₀, hs₀, fun s' c hr hc => ?_⟩
  obtain ⟨a, h⟩ := h₀.run hr
  obtain ⟨b, hrep, hyielding⟩ := hc.yielding h
  obtain ⟨c', hc', hlaw⟩ := hrep.dispatched hyielding
  exact ⟨b.queue, c', _, hrep.queues.linked, hc', hlaw⟩

theorem yield_dispatches_sample :
    ∃ s₀, initializeMultitasking zeroState 16 32 48 = .ok s₀ ∧
      ∃ q c' q', yield s₀ = .ok c' ∧ Dispatched s₀ q c' q' := by
  obtain ⟨s₀, hs₀, h⟩ := yield_dispatches zeroState_boot sampleBlocks
  obtain ⟨q, c', q', -, hc', hlaw⟩ := h s₀ s₀ .refl .direct
  exact ⟨s₀, hs₀, q, c', q', hc', hlaw⟩

end YieldPoints

end KallarOS.Sched
