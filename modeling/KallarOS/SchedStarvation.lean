import KallarOS.SchedPace
import KallarOS.Waiting

namespace KallarOS.Sched
open Function Relation Chains Waiting

namespace Plan

variable {a b : Plan} {t w : ℕ} {e : Event}

section Waiting

/-- The ticks a thread of the top level can still have to wait. -/
def topRank (a : Plan) (t : ℕ) : ℕ :=
  thirdLimit.toNat * (a.queue (.ready 0)).idxOf t + a.pending

/-- A `yield` takes a thread of the top level or leaves it one full slice closer. -/
theorem Yielding.turn_top (h : b.Yielding) (hp : b.Paced)
    (hq : a.queue (.ready 0) <+: b.queue (.ready 0)) (ht : t ∈ a.queue (.ready 0))
    (hpending : 0 < a.pending) :
    b.reschedule.currentThread = t ∨
      t ∈ b.reschedule.queue (.ready 0) ∧ b.reschedule.topRank t + 1 ≤ a.topRank t := by
  rcases h.reschedule_top (hq.subset ht) with hcur | ⟨hmem, hidx, hidle⟩
  · exact .inl hcur
  · have hplaced := h.toSettled.reschedule h.nonnull h.queued
    have hle := hp.reschedule.pending_le hplaced.current hidle
    have hsame : (b.queue (.ready 0)).idxOf t = (a.queue (.ready 0)).idxOf t := by
      obtain ⟨ys, hys⟩ := hq
      rw [← hys, List.idxOf_append_of_mem ht]
    have hlimit : thirdLimit.toNat = 30 := rfl
    refine .inr ⟨hmem, ?_⟩
    rw [topRank, topRank, ← hsame, ← hidx, hlimit]
    omega

/-- Every operation keeps the slices supplied and the boost ahead. -/
theorem Resting.step_paced (h : a.Resting) (hp : a.Paced) (he : a.Allowed e) : (a.step e).Paced := by
  by_cases htick : e = .tick
  · subst htick
    rcases h.tick_cases hp with hstay | ⟨b, -, hturn, hstep⟩
    · exact hstay.paced
    · rw [hstep]
      exact hturn.paced.reschedule.unlockScheduler
  · rcases h.step_joins he htick with hj | ⟨b, -, hj, hstep⟩
    · exact hp.joins hj
    · rw [hstep]
      exact (hp.joins hj).reschedule.unlockScheduler

/-- A thread of the top level runs next, or waits on with every tick paid for. -/
theorem Resting.step_top (h : a.Resting) (hp : a.Paced) (he : a.Allowed e)
    (ht : t ∈ a.queue (.ready 0)) :
    (a.step e).currentThread = t ∨ t ∈ (a.step e).queue (.ready 0) ∧
      (a.step e).topRank t + (if e = .tick then 1 else 0) ≤ a.topRank t := by
  have hpos := hp.pending_pos h.current
  have hprefix : ∀ {b : Plan}, a.queue (.ready 0) <+: b.queue (.ready 0) →
      (b.queue (.ready 0)).idxOf t = (a.queue (.ready 0)).idxOf t := by
    rintro b ⟨ys, hys⟩
    rw [← hys, List.idxOf_append_of_mem ht]
  by_cases htick : e = .tick
  · subst htick
    rw [if_pos rfl]
    rcases h.tick_cases hp with hstay | ⟨b, hb, hturn, hstep⟩
    · have hpending := hstay.pending
      refine .inr ⟨(hstay.ready 0).subset ht, ?_⟩
      rw [topRank, topRank, hprefix (hstay.ready 0)]
      omega
    · rw [hstep]
      exact hb.turn_top hturn.paced hturn.top ht hpos
  · rw [if_neg htick]
    rcases h.step_joins he htick with hj | ⟨b, hb, hj, hstep⟩
    · refine .inr ⟨hj.mem ht, ?_⟩
      rw [topRank, topRank, hprefix (hj.ready 0), hj.pending h.current]
      omega
    · rw [hstep]
      exact (hb.turn_top (hp.joins hj) (hj.ready 0) ht hpos).imp_right fun ⟨hmem, hle⟩ =>
        ⟨hmem, by exact Nat.le_of_succ_le hle⟩

/-- A ready thread runs next, is at the top, or waits on with every tick bringing the
boost nearer. -/
theorem Resting.step_lower (h : a.Resting) (hp : a.Paced) (he : a.Allowed e) {i : ℕ} (hi : i < 3)
    (ht : t ∈ a.queue (.ready i)) :
    ((a.step e).currentThread = t ∨ t ∈ (a.step e).queue (.ready 0)) ∨
      t ∈ (a.step e).queue (.ready i) ∧
        100 - (a.step e).counter + (if e = .tick then 1 else 0) ≤ 100 - a.counter := by
  have hlt := hp.counter
  by_cases htick : e = .tick
  · subst htick
    rw [if_pos rfl]
    rcases h.tick_cases hp with hstay | ⟨b, hb, hturn, hstep⟩
    · have hcounter := hstay.counter
      exact .inr ⟨(hstay.ready i).subset ht, by omega⟩
    · rw [hstep]
      rcases hturn.lower with ⟨hcounter, hready⟩ | ⟨-, htop⟩
      · rcases hb.mem_reschedule ((hready i).subset ht) with hcur | hmem
        · exact .inl (.inl hcur)
        · refine .inr ⟨hmem, ?_⟩
          change 100 - b.reschedule.counter + 1 ≤ _
          rw [counter_reschedule]
          omega
      · exact .inl (hb.mem_reschedule (htop i hi t ht))
  · rw [if_neg htick]
    rcases h.step_joins he htick with hj | ⟨b, hb, hj, hstep⟩
    · have hcounter := hj.counter
      exact .inr ⟨hj.mem ht, by omega⟩
    · rw [hstep]
      rcases hb.mem_reschedule (hj.mem ht) with hcur | hmem
      · exact .inl (.inl hcur)
      · refine .inr ⟨hmem, ?_⟩
        change 100 - b.reschedule.counter + 0 ≤ _
        rw [counter_reschedule, hj.counter]
        omega

end Waiting

section Sleeping

theorem Resting.systemTicks_step (h : a.Resting) (hne : e ≠ .tick) :
    (a.step e).systemTicks = a.systemTicks := by
  have hblock : ∀ (p : Place) (f : Thread → Thread),
      (a.blockOn p f).unlockScheduler.systemTicks = a.systemTicks := by
    intro p f
    rw [systemTicks_unlockScheduler, Plan.blockOn, systemTicks_reschedule]
    rfl
  cases e with
  | tick => exact absurd rfl hne
  | threadSleep d => rw [Plan.step, enterSleep_eq h.toUnlocked, hblock]
  | threadExit => rw [Plan.step, enterExit_eq h.toUnlocked, hblock]
  | acquireMutex m =>
    rw [Plan.step, enterAcquireMutex_eq h.toUnlocked]
    split_ifs
    · rfl
    · exact hblock _ _
  | acquireSemaphore m =>
    rw [Plan.step, enterAcquireSemaphore_eq h.toUnlocked]
    split_ifs
    · rfl
    · exact hblock _ _
  | releaseMutex m =>
    rw [Plan.step]
    cases hq : a.queue (.mutex m) with
    | nil =>
      rw [enterReleaseMutex_nil h.toUnlocked hq]
      rfl
    | cons t ts =>
      rw [enterReleaseMutex_cons h.toUnlocked hq, systemTicks_unlockScheduler,
        systemTicks_reschedule]
      rfl
  | releaseSemaphore m =>
    rw [Plan.step]
    cases hq : a.queue (.semaphore m) with
    | nil =>
      rw [enterReleaseSemaphore_nil h.toUnlocked hq]
      split_ifs <;> rfl
    | cons t ts =>
      rw [enterReleaseSemaphore_cons h.toUnlocked hq, systemTicks_unlockScheduler,
        systemTicks_reschedule]
      rfl
  | _ => rfl

/-- Wake times are 64-bit tick counts. -/
def Dated (a : Plan) : Prop := ∀ t ∈ a.queue .sleeping, (a.tcb t).wakeTime < 2 ^ 64

/-- Only the caller of `thread_sleep` goes to sleep. -/
theorem Resting.mem_sleeping_step (h : a.Resting) (ht : t ∈ (a.step e).queue .sleeping) :
    t ∈ a.queue .sleeping ∨ t = a.currentThread ∧ ∃ d, e = .threadSleep d := by
  by_cases htick : e = .tick
  · subst htick
    rw [Plan.step, h.queue_sleeping_tick] at ht
    exact .inl (List.mem_filter.mp ht).1
  · by_cases hsleep : ∃ d, e = .threadSleep d
    · obtain ⟨d, rfl⟩ := hsleep
      rw [Plan.step, queue_unlockScheduler, enterSleep_eq h.toUnlocked,
        Plan.blockOn, queue_reschedule (by simp)] at ht
      exact (mem_push.mp ht).imp_right fun hc => ⟨hc.1, d, rfl⟩
    · rw [h.queue_spared (.inl rfl)] at ht
      · exact .inl ht
      · cases e <;> simp_all [Spares]

theorem Resting.step_dated (h : a.Resting) (hd : a.Dated) : (a.step e).Dated := by
  intro t ht
  rcases h.mem_sleeping_step ht with hold | ⟨rfl, d, rfl⟩
  · rw [h.wakeTime_step fun he => h.toPlaced.free .sleeping (he ▸ hold)]
    exact hd t hold
  · rw [h.asleep_threadSleep.wake]
    exact Nat.mod_lt _ (by omega)

/-- The ticks until the tick count is exactly `w`. -/
def sleepRank (a : Plan) (w : ℕ) : ℕ :=
  (w + 2 ^ 64 - (a.systemTicks + 1) % 2 ^ 64) % 2 ^ 64 + 1

/-- A sleeper wakes, or sleeps on with every tick paid for. -/
theorem Asleep.step_rank (h : a.Asleep t w) (ha : a.Resting) (hw : w < 2 ^ 64) :
    ((a.step e).currentThread = t ∨ ∃ i < 3, t ∈ (a.step e).queue (.ready i)) ∨
      (a.step e).Asleep t w ∧
        (a.step e).sleepRank w + (if e = .tick then 1 else 0) ≤ a.sleepRank w := by
  by_cases htick : e = .tick
  · subst htick
    by_cases hdue : w ≤ (a.systemTicks + 1) % 2 ^ 64
    · exact .inl ((h.awake ha hdue).imp_left Eq.symm)
    · refine .inr ⟨h.step ha fun _ => not_le.mp hdue, ?_⟩
      rw [if_pos rfl, sleepRank, sleepRank, Plan.step, ha.toUnlocked.systemTicks_tick]
      omega
  · refine .inr ⟨h.step ha fun hc => absurd hc htick, ?_⟩
    rw [if_neg htick, sleepRank, sleepRank, ha.systemTicks_step htick]

end Sleeping

end Plan

section Runs

/-- The first `n` operations of `e` lead through the states `r`. -/
def Follows (r : ℕ → SchedState) (e : ℕ → Event) (n : ℕ) : Prop :=
  ∀ i < n, (e i).Allowed (r i) ∧ exec (r i) (e i) = .ok (r (i + 1))

/-- The list model after `n` operations. -/
def Plan.after (a : Plan) (e : ℕ → Event) : ℕ → Plan
  | 0 => a
  | n + 1 => (a.after e n).step (e n)

/-- The states the operations `e` lead through. -/
def runFrom (s : SchedState) (e : ℕ → Event) : ℕ → SchedState
  | 0 => s
  | n + 1 =>
    match exec (runFrom s e n) (e n) with
    | .ok s' => s'
    | .error _ => runFrom s e n

variable {s s' : SchedState} {a : Plan} {e : ℕ → Event} {r : ℕ → SchedState}
  {n t root idle cleaner : ℕ}

theorem Steady.runFrom (h : Steady s a) (he : ∀ i < n, (a.after e i).Allowed (e i)) :
    Steady (runFrom s e n) (a.after e n) := by
  induction n with
  | zero => exact h
  | succ n ih =>
    have hn := ih fun i hi => he i (by omega)
    obtain ⟨s', hok, hs'⟩ := hn.exec (hn.rep.allowed.mpr (he n (Nat.lt_succ_self n)))
    rw [Sched.runFrom, hok]
    exact hs'

theorem Steady.follows_runFrom (h : Steady s a) (he : ∀ i < n, (a.after e i).Allowed (e i)) :
    Follows (Sched.runFrom s e) e n := by
  intro i hi
  have hsteady := h.runFrom fun i' (hi' : i' < i) => he i' (by omega)
  have hallowed := hsteady.rep.allowed.mpr (he i hi)
  obtain ⟨s', hok, -⟩ := hsteady.exec hallowed
  exact ⟨hallowed, by rw [Sched.runFrom, hok]⟩

theorem Steady.follows_ticks (h : Steady s a) (n : ℕ) :
    Follows (Sched.runFrom s fun _ => .tick) (fun _ => .tick) n :=
  h.follows_runFrom fun _ _ => ⟨by simp, trivial⟩

/-- Everything the waiting times rest on. -/
structure Regular (s : SchedState) (a : Plan) : Prop extends Steady s a where
  paced : a.Paced
  dated : a.Dated

theorem Regular.step {e : Event} (h : Regular s a) (he : e.Allowed s) (hok : exec s e = .ok s') :
    Regular s' (a.step e) :=
  ⟨h.toSteady.step he hok, h.resting.step_paced h.paced (h.rep.allowed.mp he),
    h.resting.step_dated h.dated⟩

theorem Regular.run (h : Regular s a) (hr : ReflTransGen Step s s') : ∃ a', Regular s' a' := by
  induction hr with
  | refl => exact ⟨a, h⟩
  | tail _ hstep ih =>
    obtain ⟨a', h'⟩ := ih
    obtain ⟨e, he, hok⟩ := hstep
    exact ⟨_, h'.step he hok⟩

theorem Regular.follows (h : Regular (r 0) a) (hr : Follows r e n) {i : ℕ} (hi : i ≤ n) :
    Regular (r i) (a.after e i) := by
  induction i with
  | zero => exact h
  | succ i ih => exact (ih (by omega)).step (hr i (by omega)).1 (hr i (by omega)).2

theorem start_regular (hb : Boot s) (hc : s.counter < 100) (hm : Blocks root idle cleaner) :
    ∃ s₀, initializeMultitasking s root idle cleaner = .ok s₀ ∧
      Regular s₀ (startPlan s root idle cleaner) := by
  obtain ⟨s₀, hs₀, h₀⟩ := initializeMultitasking_steady hb hm
  refine ⟨s₀, hs₀, h₀, ⟨hc, fun t ht hidle => ?_⟩, fun t ht => ?_⟩
  · obtain ⟨h1, h2⟩ := startPlan_sliced hb hm t ht hidle
    exact ⟨h1, h2.trans (limit_le _)⟩
  · have hqueue : (startPlan s root idle cleaner).queue .sleeping = [] := rfl
    rw [hqueue] at ht
    cases ht

end Runs

section Results

variable {s : SchedState} {a : Plan} {e : ℕ → Event} {r : ℕ → SchedState}
  {n t root idle cleaner : ℕ}

/-- One step of a thread's wait in the top ready queue. -/
theorem Regular.top_step (h : Regular (r 0) a) (hr : Follows r e n) {i : ℕ} (hi : i < n)
    (ht : t ∈ (a.after e i).queue (.ready 0)) :
    Descends (fun i => t ∈ (a.after e i).queue (.ready 0))
      (fun i => (a.after e i).currentThread = t) (fun i => e i = .tick)
      (fun i => (a.after e i).topRank t) i := by
  have hreg := h.follows hr hi.le
  exact hreg.resting.step_top hreg.paced (hreg.rep.allowed.mp (hr i hi).1) ht

theorem Regular.topRank_pos (h : Regular s a) : 0 < a.topRank t := by
  have := h.paced.pending_pos h.resting.current
  rw [Plan.topRank]
  omega

/-- The thread at position `k` of the top ready queue runs at the latest after `k` of
the longest slices and what the current thread has left, whatever operations come
between the ticks. -/
theorem top_wait_bounded (hb : Boot s) (hc : s.counter < 100) (hm : Blocks root idle cleaner) :
    ∃ s₀, initializeMultitasking s root idle cleaner = .ok s₀ ∧
      ∀ (r : ℕ → SchedState) (e : ℕ → Event) (n : ℕ), ReflTransGen Step s₀ (r 0) → Follows r e n →
        ∀ (q : List ℕ) (k t : ℕ), Linked 0 (r 0).next ((r 0).firstReady 0) q → q[k]? = some t →
          thirdLimit.toNat * k + (r 0).pending ≤ Nat.count (fun i => e i = .tick) n →
            ∃ m ≤ n, (r m).currentThread = t := by
  obtain ⟨s₀, hs₀, h₀⟩ := start_regular hb hc hm
  refine ⟨s₀, hs₀, fun r e n hrun hr q k t hq hk hn => ?_⟩
  obtain ⟨a, h⟩ := h₀.run hrun
  obtain rfl : q = a.queue (.ready 0) := hq.unique (h.rep.queues.linked (.ready 0))
  obtain ⟨hlt, hget⟩ := List.getElem?_eq_some_iff.mp hk
  have hmem : t ∈ a.queue (.ready 0) := hget ▸ List.getElem_mem hlt
  have hidx : (a.queue (.ready 0)).idxOf t = k := by
    rw [← hget]
    exact (h.resting.nodup _).idxOf_getElem k hlt
  have hrank : a.topRank t ≤ Nat.count (fun i => e i = .tick) n := by
    rw [Plan.topRank, hidx]
    rwa [h.rep.common] at hn
  obtain ⟨m, hmn, hcur⟩ := reached _ _ _ (fun i => (a.after e i).topRank t) hmem
    (fun i hi _ => (h.follows hr hi).topRank_pos) (fun i hi ht => h.top_step hr hi ht) hrank
  exact ⟨m, hmn, (h.follows hr hmn).rep.current_eq.trans hcur⟩

theorem Regular.eventually_top (h : Regular (r 0) a) (hr : ∀ n, Follows r e n)
    (hticks : ∀ n, ∃ m, n ≤ m ∧ e m = .tick) {k : ℕ} (ht : t ∈ (a.after e k).queue (.ready 0)) :
    ∃ m, k ≤ m ∧ (a.after e m).currentThread = t :=
  eventually_reached _ _ _ (fun i => (a.after e i).topRank t) ht
    (fun i _ => (h.follows (hr i) le_rfl).topRank_pos)
    (fun i ht => h.top_step (hr (i + 1)) (Nat.lt_succ_self i) ht) hticks

theorem Regular.eventually_ready (h : Regular (r 0) a) (hr : ∀ n, Follows r e n)
    (hticks : ∀ n, ∃ m, n ≤ m ∧ e m = .tick) {k i : ℕ} (hi : i < 3)
    (ht : t ∈ (a.after e k).queue (.ready i)) : ∃ m, k ≤ m ∧ (a.after e m).currentThread = t := by
  have hreg := fun j => h.follows (hr j) le_rfl
  obtain ⟨m, hm, hcur | hmem⟩ := eventually_reached (fun j => t ∈ (a.after e j).queue (.ready i))
    (fun j => (a.after e j).currentThread = t ∨ t ∈ (a.after e j).queue (.ready 0)) _
    (fun j => 100 - (a.after e j).counter) ht
    (fun j _ => Nat.sub_pos_of_lt (hreg j).paced.counter)
    (fun j ht => (hreg j).resting.step_lower (hreg j).paced
      ((hreg j).rep.allowed.mp (hr (j + 1) j (Nat.lt_succ_self j)).1) hi ht) hticks
  · exact ⟨m, hm, hcur⟩
  · obtain ⟨m', hm', hcur⟩ := h.eventually_top hr hticks hmem
    exact ⟨m', hm.trans hm', hcur⟩

theorem Regular.eventually_awake (h : Regular (r 0) a) (hr : ∀ n, Follows r e n)
    (hticks : ∀ n, ∃ m, n ≤ m ∧ e m = .tick) {k : ℕ} (ht : t ∈ (a.after e k).queue .sleeping) :
    ∃ m, k ≤ m ∧ (a.after e m).currentThread = t := by
  have hreg := fun j => h.follows (hr j) le_rfl
  have hdate := (hreg k).dated t ht
  obtain ⟨m, hm, hcur | ⟨i, hi, hmem⟩⟩ := eventually_reached
    (fun j => (a.after e j).Asleep t ((a.after e k).tcb t).wakeTime)
    (fun j => (a.after e j).currentThread = t ∨ ∃ i < 3, t ∈ (a.after e j).queue (.ready i)) _
    (fun j => (a.after e j).sleepRank ((a.after e k).tcb t).wakeTime) ⟨ht, rfl⟩
    (fun j _ => Nat.succ_pos _)
    (fun j hs => hs.step_rank (hreg j).resting hdate) hticks
  · exact ⟨m, hm, hcur⟩
  · obtain ⟨m', hm', hcur⟩ := h.eventually_ready hr hticks hi hmem
    exact ⟨m', hm.trans hm', hcur⟩

theorem top_wait_bounded_sample :
    ∃ s₀, initializeMultitasking zeroState 16 32 48 = .ok s₀ ∧
      ∃ m ≤ 10, (runFrom s₀ (fun _ => .tick) m).currentThread = 48 := by
  obtain ⟨s₀, hs₀, h⟩ := top_wait_bounded zeroState_boot (by decide) sampleBlocks
  obtain ⟨s, hs, hsteady⟩ := initializeMultitasking_steady zeroState_boot sampleBlocks
  cases hs.symm.trans hs₀
  have hpending : s₀.pending = 10 := by
    rw [hsteady.rep.common]
    decide
  have hcount : thirdLimit.toNat * 0 + s₀.pending ≤ Nat.count (fun _ => Event.tick = .tick) 10 := by
    rw [hpending]
    decide
  exact ⟨s₀, hs₀, h _ _ 10 .refl (hsteady.follows_ticks 10) [48] 0 48
    (hsteady.rep.queues.linked (.ready 0)) rfl hcount⟩

/-- In an endless run of atomic operations that keeps being ticked, every thread that is
ready or asleep at any time runs later. -/
theorem no_starvation (hb : Boot s) (hc : s.counter < 100) (hm : Blocks root idle cleaner) :
    ∃ s₀, initializeMultitasking s root idle cleaner = .ok s₀ ∧
      ∀ (r : ℕ → SchedState) (e : ℕ → Event), ReflTransGen Step s₀ (r 0) → (∀ n, Follows r e n) →
        (∀ n, ∃ m, n ≤ m ∧ e m = .tick) →
        ∀ n, ∀ t ∈ (r n).alive, t ≠ (r n).idleThread →
          (((r n).tcb t).state = .ready ∨ ((r n).tcb t).state = .sleeping) →
            ∃ m, n ≤ m ∧ (r m).currentThread = t := by
  obtain ⟨s₀, hs₀, h₀⟩ := start_regular hb hc hm
  refine ⟨s₀, hs₀, fun r e hrun hr hticks n t hal hidle hstate => ?_⟩
  obtain ⟨a, h⟩ := h₀.run hrun
  have hreg := h.follows (hr n) le_rfl
  rw [hreg.rep.alive_eq] at hal
  rw [hreg.rep.idle_eq] at hidle
  rw [hreg.rep.tcb_eq] at hstate
  have hcur : t ≠ (a.after e n).currentThread := fun he => by
    have hrun := hreg.resting.running
    rw [← he] at hrun
    rcases hstate with hs | hs <;> rw [hrun] at hs <;> cases hs
  obtain ⟨p, hp⟩ := hreg.resting.waits t hal hidle hcur
  have hplace := hreg.resting.state p t hp
  suffices hplan : ∃ m, n ≤ m ∧ (a.after e m).currentThread = t by
    obtain ⟨m, hnm, hm⟩ := hplan
    exact ⟨m, hnm, (h.follows (hr m) le_rfl).rep.current_eq.trans hm⟩
  cases p with
  | ready i =>
    have hlevel := hreg.resting.level i t hp
    exact h.eventually_ready hr hticks (hlevel ▸ hreg.resting.levels t hal) hp
  | sleeping => exact h.eventually_awake hr hticks hp
  | _ => simp_all

theorem no_starvation_sample :
    ∃ s₀, initializeMultitasking zeroState 16 32 48 = .ok s₀ ∧
      ∃ m, (runFrom s₀ (fun _ => .tick) m).currentThread = 48 := by
  obtain ⟨s₀, hs₀, h⟩ := no_starvation zeroState_boot (by decide) sampleBlocks
  obtain ⟨s, hs, hsteady⟩ := initializeMultitasking_steady zeroState_boot sampleBlocks
  cases hs.symm.trans hs₀
  have hal : 48 ∈ s₀.alive := by
    rw [hsteady.rep.alive_eq]
    decide
  have hidle : 48 ≠ s₀.idleThread := by
    rw [hsteady.rep.idle_eq]
    decide
  have hready : (s₀.tcb 48).state = .ready := by
    rw [hsteady.rep.tcb_eq]
    decide
  obtain ⟨m, -, hm⟩ := h _ _ .refl hsteady.follows_ticks (fun n => ⟨n, le_rfl, rfl⟩) 0 48 hal hidle
    (.inl hready)
  exact ⟨s₀, hs₀, m, hm⟩

end Results

end KallarOS.Sched
