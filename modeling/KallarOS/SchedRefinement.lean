import KallarOS.SchedLinks

namespace KallarOS.Sched
open Function Chains Pmm

namespace Rep

variable {s : SchedState} {a : Plan} {t p : ℕ}

section ReadyQueues

theorem firstReady_eq_zero (h : Rep s a) (i : ℕ) : s.firstReady i = 0 ↔ a.queue (.ready i) = [] :=
  h.queues.head_eq_null (.ready i)

/-- A thread at the end of a queue with a tail pointer. -/
theorem appendTail {q : Place} {last : ℕ} {started extended : SchedState → SchedState}
    (h : Rep s a) (hal : t ∈ a.alive) (ht : ∀ p, t ∉ a.queue p) (hnext : s.next t = 0)
    (hlast : s.last q = some last)
    (hstart : (started s).toCommon = s.toCommon ∧ (started s).next = s.next ∧
      (started s).head = update s.head q t ∧ (started s).last = update s.last q (some t))
    (hext : ∀ n, (extended { s with next := n }).toCommon = s.toCommon ∧
      (extended { s with next := n }).next = n ∧ (extended { s with next := n }).head = s.head ∧
      (extended { s with next := n }).last = update s.last q (some t)) :
    Refines (appendTail s (s.head q) last t started extended) (a.push q t) := by
  have hother : ∀ q', q' ≠ q → update s.last q (some t) q' = s.last q' :=
    fun q' hq' => update_of_ne hq' _ _
  rw [Sched.appendTail]
  rcases (a.queue q).eq_nil_or_concat' with hq | ⟨ys, l, hq⟩
  · obtain ⟨hc, hn, hh, hl⟩ := hstart
    rw [if_pos ((h.queues.head_eq_null q).mpr hq)]
    exact ⟨_, rfl, h.push hal ht hnext hc (.inl ⟨hq, hn, hh⟩) (hl ▸ hother) (by simp [hl])⟩
  · have hlast' : last = l := h.last q last hlast l (by simp [hq])
    have hlal : l ∈ a.alive := h.alive q l (by simp [hq])
    have hne : ¬ s.head q = 0 := fun h0 => by simp [(h.queues.head_eq_null q).mp h0] at hq
    obtain ⟨hc, hn, hh, hl⟩ := hext (update s.next l t)
    rw [if_neg hne, hlast', h.writeNext hlal, Outcome.ok_bind]
    exact ⟨_, rfl, h.push hal ht hnext hc (.inr ⟨ys, l, hq, hn, hh⟩) (hl ▸ hother) (by simp [hl])⟩

theorem appendReady (h : Rep s a) (hal : t ∈ a.alive) (ht : ∀ p, t ∉ a.queue p)
    (hnext : s.next t = 0) (hp : p < 3) : Refines (appendReady s t p) (a.push (.ready p) t) := by
  rw [Sched.appendReady, if_neg (by omega)]
  refine h.appendTail (q := .ready p) hal ht hnext rfl ⟨rfl, rfl, ?_, ?_⟩ fun n => ⟨rfl, rfl, ?_, ?_⟩
  all_goals
    funext q
    cases q <;> simp [SchedState.head, SchedState.last, update_apply]
    try (split_ifs <;> rfl)

theorem enqueueThread (h : Rep s a) (hal : t ∈ a.alive) (ht : ∀ p, t ∉ a.queue p) (hp : p < 3) :
    Refines (enqueueThread s t p) (a.enqueueThread t p) := by
  have h1 := h.setNext ht 0
  have h2 := h1.setThread t fun th => { th with priority := p }
  rw [Sched.enqueueThread, h.writeNext hal, Outcome.ok_bind, h1.modify_eq hal, Outcome.ok_bind]
  exact h2.appendReady hal ht (by simp) hp

theorem dequeueThread (h : Rep s a) :
    ∃ s', dequeueThread s = .ok (a.dequeueThread.1, s') ∧ Rep s' a.dequeueThread.2 := by
  have hfind : ([0, 1, 2].find? fun i => s.firstReady i ≠ 0) = a.topLevel := by
    rw [Plan.topLevel]
    congr 1
    funext i
    exact decide_eq_decide.mpr (not_congr (h.firstReady_eq_zero i))
  rw [Sched.dequeueThread, hfind, Plan.dequeueThread]
  cases htop : a.topLevel with
  | none => exact ⟨s, rfl, h⟩
  | some i =>
    have hne : a.queue (.ready i) ≠ [] := by
      have := List.find?_some htop
      simpa using this
    obtain ⟨t, ts, hq⟩ := List.exists_cons_of_ne_nil hne
    have hfirst : s.firstReady i = t := h.queues.head_of_cons (i := .ready i) hq
    have hal : t ∈ a.alive := h.alive (.ready i) t (by simp [hq])
    simp only [hfirst, h.readNext hal, Outcome.ok_bind, hq, List.headD_cons]
    refine ⟨_, rfl, h.pop _ hq rfl rfl ?_ rfl⟩
    funext p'
    cases p' <;> simp [SchedState.head, update_apply]

/-- Setting another queue's head commutes with an append to queue 0. -/
theorem enqueueThread_firstReady {i : ℕ} (hi : i ≠ 0) (s : SchedState) (t v : ℕ) :
    Sched.enqueueThread { s with firstReady := update s.firstReady i v } t 0 =
      Except.map (fun s' => { s' with firstReady := update s'.firstReady i v })
        (Sched.enqueueThread s t 0) := by
  by_cases hal : t ∈ s.alive
  swap
  · simp [Sched.enqueueThread, SchedState.writeNext, hal, Except.map]
  by_cases hf : s.firstReady 0 = 0
  · simp [Sched.enqueueThread, SchedState.writeNext, SchedState.modify, hal, Sched.appendReady,
      Sched.appendTail, hf,
      Except.map, update_of_ne hi.symm, update_comm hi]
  · by_cases hl : s.lastReady 0 ∈ s.alive
    · simp [Sched.enqueueThread, SchedState.writeNext, SchedState.modify, hal, Sched.appendReady,
      Sched.appendTail, hf,
        hl, Except.map, update_of_ne hi.symm]
    · simp [Sched.enqueueThread, SchedState.writeNext, SchedState.modify, hal, Sched.appendReady,
      Sched.appendTail, hf,
        hl, Except.map, update_of_ne hi.symm]

end ReadyQueues

section Reset

variable {i : ℕ} {ts : List ℕ}

theorem queue_lift_of_ne {q : Place} {f : Thread → Thread} (hq : q ≠ .ready 0) :
    (a.lift q t f).queue q = (a.queue q).erase t := by
  simp [Plan.lift, Plan.enqueueThread, Plan.push, Plan.modify, Plan.remove, update_of_ne hq]

theorem queue_drainQueue (hi : i ≠ 0) (hq : a.queue (.ready i) = ts) :
    (Plan.drainQueue i ts a).queue (.ready i) = [] := by
  induction ts generalizing a with
  | nil => exact hq
  | cons t ts ih =>
    rw [Plan.drainQueue]
    apply ih
    rw [queue_lift_of_ne (by simpa using hi), hq, List.erase_cons_head]

theorem drainQueue (h : Rep s a) (hi : i ≠ 0) (hq : a.queue (.ready i) = ts) {fuel : ℕ}
    (hf : ts.length < fuel) : Refines (drainQueue i fuel s) (Plan.drainQueue i ts a) := by
  induction ts generalizing s a fuel with
  | nil =>
    obtain ⟨fuel, rfl⟩ : ∃ k, fuel = k + 1 := ⟨fuel - 1, by simp at hf; omega⟩
    rw [Sched.drainQueue, if_pos ((h.firstReady_eq_zero i).mpr hq)]
    exact h.refines
  | cons t ts ih =>
    obtain ⟨fuel, rfl⟩ : ∃ k, fuel = k + 1 := ⟨fuel - 1, by simp at hf; omega⟩
    have hmem : t ∈ a.queue (.ready i) := by simp [hq]
    have hal := h.alive _ t hmem
    have hfirst : s.firstReady i = t := h.queues.head_of_cons (i := .ready i) hq
    have ht0 : ¬ t = 0 := fun h0 => h.nonnull (h0 ▸ hal)
    have h1 := h.setThread t fun th => { th with remainingTime := firstLimit }
    -- the source appends first and moves the head afterwards
    have h2 := h1.pop (p := .ready i) { s with
        tcb := update s.tcb t { s.tcb t with remainingTime := firstLimit }
        firstReady := update s.firstReady i (s.next t) } hq rfl rfl
      (by funext p'; cases p' <;> simp [SchedState.head, update_apply]) rfl
    obtain ⟨s3, hs3, h3⟩ := h2.enqueueThread (p := 0) hal (h1.notMem_remove hmem) (by omega)
    have hstep : Sched.drainQueue i (fuel + 1) s = Sched.drainQueue i fuel s3 := by
      rw [Sched.drainQueue, hfirst, if_neg ht0, h.readNext hal, Outcome.ok_bind, h.modify_eq hal,
        Outcome.ok_bind]
      simp only [hfirst]
      rw [enqueueThread_firstReady hi
        { s with tcb := update s.tcb t { s.tcb t with remainingTime := firstLimit } }] at hs3
      cases he : Sched.enqueueThread
          { s with tcb := update s.tcb t { s.tcb t with remainingTime := firstLimit } } t 0 with
      | error e => simp [he, Except.map] at hs3
      | ok s4 =>
        rw [he] at hs3
        cases hs3
        rfl
    rw [hstep, Plan.drainQueue]
    refine ih h3 ?_ (by simpa using hf)
    change (a.lift (.ready i) t _).queue (.ready i) = ts
    rw [queue_lift_of_ne (by simpa using hi), hq, List.erase_cons_head]

theorem resetQueue (h : Rep s a) (hi : i ≠ 0) : Refines (resetQueue s i) (a.resetQueue i) := by
  obtain ⟨s', hs', h'⟩ := h.drainQueue hi rfl (h.length_lt (.ready i))
  rw [Sched.resetQueue, walkFuel, hs', Outcome.ok_bind]
  refine ⟨_, rfl, { h' with last := fun p l hl t ht => ?_ }⟩
  by_cases hp : p = .ready i
  · subst hp
    rw [Plan.resetQueue, queue_drainQueue hi rfl] at ht
    simp at ht
  · refine h'.last p l ?_ t ht
    cases p <;> simp_all [SchedState.last]

theorem resetQueues (h : Rep s a) : Refines (resetQueues s) a.resetQueues :=
  (h.resetQueue (by decide)).bind fun _ h1 => (h1.resetQueue (by decide)).bind fun _ h2 =>
    (h2.mapCommon (fun c => { c with counter := 0 }) (fun _ => rfl) (fun _ => rfl)
      fun _ => rfl).refines

end Reset

section Switching

theorem requeue (h : Rep s a) (hy : a.Yieldable) : Refines (requeue s) a.requeue := by
  rw [Sched.requeue, h.current_eq, h.load h.current, Outcome.ok_bind, Plan.requeue]
  by_cases hrun : (a.tcb a.currentThread).state = .running
  · rw [if_pos hrun, if_pos hrun]
    refine (h.modify h.current _).bind fun s1 h1 => ?_
    have hcur : s1.currentThread = a.currentThread := h1.current_eq
    have hidle : s1.idleThread = a.idleThread := h1.idle_eq
    rw [hcur, hidle]
    by_cases hne : a.currentThread ≠ a.idleThread
    · rw [if_pos hne, if_pos hne]
      exact h1.enqueueThread h.current (hy hrun hne).1 (hy hrun hne).2
    · rw [if_neg hne, if_neg hne]
      exact h1.refines
  · rw [if_neg hrun, if_neg hrun]
    exact h.refines

theorem setCurrent (h : Rep s a) (ht : t ∈ a.alive) :
    Rep { s with currentThread := t } { a with currentThread := t } := by
  have hc := h.withCommon { a.toCommon with currentThread := t } rfl ht h.idle
  exact { hc with common := by rw [h.common] }

theorem switchToTask {prev next : ℕ} (h : Rep s a) (hprev : prev ∈ a.alive) (hnext : next ∈ a.alive) :
    Refines (switchToTask s prev next) (a.switchToTask prev next) := by
  have heflags : s.eflags = a.eflags := congrArg Common.eflags h.common
  have h1 := h.setThread prev fun t => { t with frameEflags := s.eflags }
  rw [Sched.switchToTask, h.modify_eq hprev, Outcome.ok_bind, h1.load hnext, Outcome.ok_bind,
    Plan.switchToTask]
  rw [heflags] at h1 ⊢
  exact (h1.mapCommon (fun c => { c with eflags := (c.tcb next).frameEflags }) (fun _ => rfl)
    (fun _ => rfl) fun _ => rfl).refines.imp fun s' hs' => ⟨by
      rw [← hs'.1, ← h1.tcb_eq]; rfl, hs'.2⟩

theorem dispatch {prev next : ℕ} (h : Rep s a) (hprev : prev ∈ a.alive) (hnext : next ∈ a.alive) :
    Refines (dispatch s prev next) (a.dispatch prev next) := by
  rw [Sched.dispatch, Plan.dispatch]
  have h1 := h.setThread next fun t => { t with state := .running }
  by_cases he : prev = next
  · rw [if_pos he, if_pos he, he]
    exact h.modify hnext _
  · rw [if_neg he, if_neg he, h.modify_eq hnext, Outcome.ok_bind]
    exact (h1.setCurrent hnext).switchToTask hprev hnext

theorem successor_alive (h : Rep s a) :
    a.dequeueThread.2.successor a.dequeueThread.1 ∈ a.alive := by
  rw [Plan.dequeueThread]
  cases htop : a.topLevel with
  | none =>
    rw [Plan.successor, if_pos rfl]
    exact h.idle
  | some i =>
    simp only [Plan.successor]
    split_ifs with h0
    · exact h.idle
    · cases hq : a.queue (.ready i) with
      | nil => simp [hq] at h0
      | cons t ts => exact h.alive (.ready i) t (by simp [hq])

theorem alive_dequeueThread (a : Plan) : a.dequeueThread.2.alive = a.alive := by
  rw [Plan.dequeueThread]
  split <;> rfl

theorem reschedule (h : Rep s a) (hy : a.Yieldable) :
    Refines (do
      let s ← Sched.requeue s
      let (nextThread, s) ← Sched.dequeueThread s
      Sched.dispatch s s.currentThread (if nextThread = 0 then s.idleThread else nextThread))
      a.reschedule := by
  refine (h.requeue hy).bind fun s1 h1 => ?_
  obtain ⟨s2, hs2, h2⟩ := h1.dequeueThread
  rw [hs2, Outcome.ok_bind]
  simp only [h2.current_eq, h2.idle_eq]
  refine h2.dispatch h2.current ?_
  rw [alive_dequeueThread]
  exact h1.successor_alive

theorem yield (h : Rep s a) (hy : a.Yieldable) : Refines (yield s) a.yield := by
  have hp : s.postponeSwitchesCounter = a.postponeSwitchesCounter :=
    congrArg Common.postponeSwitchesCounter h.common
  rw [Sched.yield, Plan.yield]
  by_cases hc : 0 < a.postponeSwitchesCounter
  · rw [if_pos (hp ▸ hc), if_pos hc]
    exact (h.mapCommon (fun c => { c with postponedYieldFlag := 1 }) (fun _ => rfl) (fun _ => rfl)
      fun _ => rfl).refines
  · rw [if_neg (hp ▸ hc), if_neg hc]
    exact h.reschedule hy

theorem lockScheduler (h : Rep s a) : Refines (lockScheduler s) a.lockScheduler := by
  obtain ⟨c, n, fr, lr, sq, tq, dq, mf, ml, sf, sl⟩ := s
  obtain ⟨c', q⟩ := a
  obtain rfl : c = c' := h.common
  have hcur : c.currentThread ∈ c.alive := h.current
  have hlock := h.mapCommon (fun c => (Plan.lockScheduler ⟨c, q⟩).toCommon) (fun _ => rfl)
    (fun _ => rfl) fun _ => rfl
  simp only [Sched.lockScheduler, saveInterrupts, SchedState.modify, if_pos hcur]
  simp only [Plan.lockScheduler] at hlock ⊢
  split_ifs at hlock ⊢ <;> exact hlock.refines

theorem unlockScheduler (h : Rep s a) : Refines (unlockScheduler s) a.unlockScheduler := by
  obtain ⟨c, n, fr, lr, sq, tq, dq, mf, ml, sf, sl⟩ := s
  obtain ⟨c', q⟩ := a
  obtain rfl : c = c' := h.common
  have hcur : c.currentThread ∈ c.alive := h.current
  have hunlock := h.mapCommon (fun c => (Plan.unlockScheduler ⟨c, q⟩).toCommon) (fun _ => rfl)
    (fun _ => rfl) fun _ => rfl
  simp only [Sched.unlockScheduler, restoreInterrupts, SchedState.load, if_pos hcur]
  simp only [Plan.unlockScheduler] at hunlock ⊢
  by_cases h0 : c.irqDisableCounter = 0
  · rw [if_pos h0]
    rw [if_pos h0, if_neg fun hc => hc.1 h0] at hunlock ⊢
    exact hunlock.refines
  · rw [if_neg h0]
    rw [if_neg h0] at hunlock ⊢
    by_cases h1 : dec8 c.irqDisableCounter = 0
    · rw [if_pos h1]
      rw [if_pos ⟨h0, h1⟩] at hunlock ⊢
      exact hunlock.refines
    · rw [if_neg h1]
      rw [if_neg fun hc => h1 hc.2] at hunlock ⊢
      exact hunlock.refines

theorem lockAtomic (h : Rep s a) : Refines (lockAtomic s) a.lockAtomic :=
  h.lockScheduler.bind fun _ h1 =>
    (h1.mapCommon (fun c => { c with
      postponeSwitchesCounter := inc8 c.postponeSwitchesCounter }) (fun _ => rfl) (fun _ => rfl)
      fun _ => rfl).refines

theorem leaveAtomic (h : Rep s a) (hy : a.Yieldable) : Refines (leaveAtomic s) a.leaveAtomic := by
  obtain ⟨c, n, fr, lr, sq, tq, dq, mf, ml, sf, sl⟩ := s
  obtain ⟨c', q⟩ := a
  obtain rfl : c = c' := h.common
  simp only [Sched.leaveAtomic, Plan.leaveAtomic]
  split_ifs
  · exact (h.mapCommon (fun c => { c with
      postponeSwitchesCounter := dec8 c.postponeSwitchesCounter
      postponedYieldFlag := 0 }) (fun _ => rfl) (fun _ => rfl) fun _ => rfl).yield hy
  · exact (h.mapCommon (fun c => { c with
      postponeSwitchesCounter := dec8 c.postponeSwitchesCounter }) (fun _ => rfl) (fun _ => rfl)
      fun _ => rfl).refines

end Switching

end Rep

end KallarOS.Sched
