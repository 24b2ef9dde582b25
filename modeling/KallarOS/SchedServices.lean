import KallarOS.SchedRefinement

namespace KallarOS.Sched
open Function Chains Pmm

/-- As `Refines`, for a routine that also returns a flag. -/
def RefinesFlag (x : Outcome (Bool × SchedState)) (a : Bool × Plan) : Prop :=
  ∃ s, x = .ok (a.1, s) ∧ Rep s a.2

section Calls

/-- `thread_sleep` up to its `yield`. -/
def queueSleeper (s : SchedState) (requestedTime : ℕ) : Outcome SchedState := do
  let s ← lockScheduler s
  let thread := s.currentThread
  let s ← s.writeNext thread 0
  let s ← s.modify thread fun t =>
    { t with wakeTime := (s.systemTicks + requestedTime) % 2 ^ 64, state := .sleeping }
  joinSleepers s thread

theorem enterSleep_eq_queueSleeper (s : SchedState) (requestedTime : ℕ) :
    enterSleep s requestedTime = queueSleeper s requestedTime >>= yield := by
  simp only [enterSleep, queueSleeper, bind_assoc]

/-- `thread_exit` up to its `yield`. -/
def queueTerminated (s : SchedState) : Outcome SchedState := do
  let s ← lockScheduler s
  let thread := s.currentThread
  let s ← s.writeNext thread 0
  let s ← s.modify thread fun t => { t with state := .terminated }
  joinTerminated s thread

theorem enterExit_eq_queueTerminated (s : SchedState) :
    enterExit s = queueTerminated s >>= yield := by
  simp only [enterExit, queueTerminated, bind_assoc]

end Calls

namespace Rep

variable {s : SchedState} {a : Plan} {t : ℕ}

section Ticks

theorem nonzero (h : Rep s a) (ht : t ∈ a.alive) : t ≠ 0 := fun h0 => h.nonnull (h0 ▸ ht)

theorem unlinkSleeper {kept ts : List ℕ} (h : Rep s a) (hq : a.queue .sleeping = kept ++ t :: ts) :
    Refines (unlinkSleeper s t (kept.getLastD 0)) (a.remove .sleeping t) := by
  have hal : t ∈ a.alive := h.alive .sleeping t (by simp [hq])
  rcases kept.eq_nil_or_concat' with rfl | ⟨ys, l, rfl⟩
  · have hhead : s.sleepingThreadQueue = t := h.queues.head_of_cons (i := .sleeping) hq
    rw [Sched.unlinkSleeper, List.getLastD_nil, if_pos rfl, hhead, h.readNext hal, Outcome.ok_bind]
    refine ⟨_, rfl, h.pop _ hq rfl rfl ?_ rfl⟩
    funext p
    cases p <;> simp [SchedState.head]
  · have hlal : l ∈ a.alive := h.alive .sleeping l (by simp [hq])
    have hlast : (ys ++ [l]).getLastD 0 = l := by simp
    rw [Sched.unlinkSleeper, hlast, if_neg (h.nonzero hlal), h.readNext hal, Outcome.ok_bind,
      h.writeNext hlal]
    exact ⟨_, rfl, h.unlink (by simpa using hq) rfl⟩

/-- The walk over the sleepers: `kept` is what it has passed, `ts` what is to come. -/
theorem wakeSleepers {fuel : ℕ} (h : Rep s a) (ts kept : List ℕ)
    (hq : a.queue .sleeping = kept ++ ts) (hf : ts.length < fuel) :
    Refines (wakeSleepers fuel s (ts.headD 0) (kept.getLastD 0)) (Plan.wakeSleepers ts a) := by
  induction ts generalizing kept s a fuel with
  | nil =>
    obtain ⟨fuel, rfl⟩ : ∃ k, fuel = k + 1 := ⟨fuel - 1, by simp at hf; omega⟩
    rw [Sched.wakeSleepers, List.headD_nil, if_pos rfl]
    exact h.refines
  | cons t ts ih =>
    obtain ⟨fuel, rfl⟩ : ∃ k, fuel = k + 1 := ⟨fuel - 1, by simp at hf; omega⟩
    have hmem : t ∈ a.queue .sleeping := by simp [hq]
    have hal := h.alive _ t hmem
    have hticks : s.systemTicks = a.systemTicks := congrArg Common.systemTicks h.common
    rw [Sched.wakeSleepers, List.headD_cons, if_neg (h.nonzero hal), h.readNext hal,
      Outcome.ok_bind, h.load hal, Outcome.ok_bind, Plan.wakeSleepers, hticks, h.queues.next_eq hq]
    split_ifs
    · refine (h.modify hal _).bind fun s1 h1 => (h1.unlinkSleeper hq).bind fun s2 h2 =>
        (h2.enqueueThread hal (h1.notMem_remove hmem) (by omega)).bind fun s3 h3 => ?_
      refine ih h3 kept ?_ (by simpa using hf)
      have hnd := h.queues.nodup .sleeping
      rw [hq, List.nodup_append] at hnd
      have hkept : t ∉ kept := fun hk => hnd.2.2 t hk t (by simp) rfl
      change (a.lift .sleeping t _).queue .sleeping = kept ++ ts
      rw [queue_lift_of_ne (by simp), hq, List.erase_append_right _ hkept, List.erase_cons_head]
    · have hlast : (kept ++ [t]).getLastD 0 = t := by simp
      have := ih h (kept ++ [t]) (by simpa using hq) (show ts.length < fuel by simpa using hf)
      rwa [hlast] at this

theorem chargeCurrent (h : Rep s a) : RefinesFlag (chargeCurrent s) a.chargeCurrent := by
  rw [Sched.chargeCurrent, h.current_eq, Plan.chargeCurrent]
  obtain ⟨s1, hs1, h1⟩ := h.modify h.current Thread.charge
  have hcur : s1.currentThread = a.currentThread := h1.current_eq
  rw [hs1, Outcome.ok_bind, hcur, h1.load h.current, Outcome.ok_bind]
  split_ifs
  · obtain ⟨s2, hs2, h2⟩ := h1.modify h.current Thread.demote
    rw [hs2, Outcome.ok_bind]
    exact ⟨s2, rfl, h2⟩
  · exact ⟨s1, rfl, h1⟩

theorem countTick (h : Rep s a) : Rep (countTick s) a.countTick :=
  h.mapCommon (fun c => { c with counter := inc8 c.counter }) (fun _ => rfl) (fun _ => rfl)
    fun _ => rfl

theorem boostCurrent (h : Rep s a) : Refines (boostCurrent s) a.boostCurrent := by
  rw [Sched.boostCurrent, Plan.boostCurrent, h.current_eq, h.idle_eq]
  split_ifs
  · exact h.modify h.current _
  · exact h.refines

theorem counter_eq (h : Rep s a) : s.counter = a.counter := congrArg Common.counter h.common

theorem idleTick (h : Rep s a) : RefinesFlag (idleTick s) a.idleTick := by
  have h1 := h.countTick
  rw [Sched.idleTick, Plan.idleTick]
  simp only [h1.counter_eq]
  split_ifs
  · obtain ⟨s2, hs2, h2⟩ := h1.resetQueues
    rw [hs2, Outcome.ok_bind]
    exact ⟨s2, rfl, h2⟩
  · exact ⟨_, rfl, h1⟩

theorem busyTick (h : Rep s a) : RefinesFlag (busyTick s) a.busyTick := by
  obtain ⟨s1, hs1, h1⟩ := h.chargeCurrent
  have h2 := h1.countTick
  rw [Sched.busyTick, Plan.busyTick, hs1, Outcome.ok_bind]
  simp only [h2.counter_eq]
  split_ifs
  · obtain ⟨s3, hs3, h3⟩ := h2.resetQueues
    obtain ⟨s4, hs4, h4⟩ := h3.boostCurrent
    rw [hs3, Outcome.ok_bind, hs4, Outcome.ok_bind]
    exact ⟨s4, rfl, h4⟩
  · exact ⟨_, rfl, h2⟩

theorem tickBody (h : Rep s a) : RefinesFlag (tickBody s) a.tickBody := by
  have hhead : s.sleepingThreadQueue = (a.queue .sleeping).headD 0 := h.queues.head_eq .sleeping
  -- the whole queue is left to walk and nothing is passed yet
  obtain ⟨s1, hs1, h1⟩ := h.wakeSleepers (a.queue .sleeping) [] rfl
    (h.length_lt .sleeping)
  rw [List.getLastD_nil] at hs1
  rw [Sched.tickBody, hhead, walkFuel, Plan.tickBody, hs1, Outcome.ok_bind, h1.current_eq, h1.idle_eq]
  split_ifs
  · exact h1.idleTick
  · exact h1.busyTick

theorem enterTick (h : Rep s a) (hy : a.tickBody.2.lockScheduler.Yieldable) :
    RefinesFlag (enterTick s) a.enterTick := by
  obtain ⟨s1, hs1, h1⟩ := h.tickBody
  rw [Sched.enterTick, hs1, Outcome.ok_bind, Plan.enterTick]
  split_ifs with hb
  · obtain ⟨s2, hs2, h2⟩ := h1.lockScheduler
    obtain ⟨s3, hs3, h3⟩ := h2.yield hy
    simp only [hb, if_true, hs2, Outcome.ok_bind, hs3]
    exact ⟨s3, rfl, h3⟩
  · simp only [hb]
    exact ⟨s1, rfl, h1⟩

theorem schedulerOnTick (h : Rep s a) (hy : a.tickBody.2.lockScheduler.Yieldable) :
    Refines (schedulerOnTick s) a.schedulerOnTick := by
  obtain ⟨s1, hs1, h1⟩ := h.enterTick hy
  rw [Sched.schedulerOnTick, hs1, Outcome.ok_bind, Plan.schedulerOnTick]
  simp only
  split_ifs
  · exact h1.unlockScheduler
  · exact h1.refines

theorem countSystemTick (h : Rep s a) :
    Rep { s with systemTicks := (s.systemTicks + 1) % 2 ^ 64 }
      { a with systemTicks := (a.systemTicks + 1) % 2 ^ 64 } :=
  h.mapCommon (fun c => { c with systemTicks := (c.systemTicks + 1) % 2 ^ 64 }) (fun _ => rfl)
    (fun _ => rfl) fun _ => rfl

end Ticks

section Services

theorem tailOf {x : ℕ} {xs : List ℕ} (h : Rep s a) (fuel : ℕ) (hp : Path s.next x (x :: xs) 0)
    (hal : ∀ y ∈ x :: xs, y ∈ a.alive) (hf : xs.length < fuel) :
    tailOf fuel s x = .ok ((x :: xs).getLastD 0) := by
  induction xs generalizing x fuel with
  | nil =>
    obtain ⟨fuel, rfl⟩ : ∃ k, fuel = k + 1 := ⟨fuel - 1, by simp at hf; omega⟩
    have hnext : s.next x = 0 := hp.2
    rw [Sched.tailOf, h.readNext (hal x (by simp)), Outcome.ok_bind, if_pos hnext]
    rfl
  | cons y ys ih =>
    obtain ⟨fuel, rfl⟩ : ∃ k, fuel = k + 1 := ⟨fuel - 1, by simp at hf; omega⟩
    have hy : y ∈ a.alive := hal y (by simp)
    have hnext : s.next x = y := hp.2.1
    rw [Sched.tailOf, h.readNext (hal x (by simp)), Outcome.ok_bind, hnext, if_neg (h.nonzero hy),
      ih fuel ⟨rfl, hp.2.2⟩ (fun z hz => hal z (List.mem_cons_of_mem _ hz)) (by simpa using hf)]
    simp

/-- A thread at the end of a queue without a tail pointer. -/
theorem joinQueue {p : Place} (h : Rep s a) (started : SchedState) (hal : t ∈ a.alive)
    (ht : ∀ p, t ∉ a.queue p) (hnext : s.next t = 0) (hlast : s.last p = none)
    (hc : started.toCommon = s.toCommon) (hn : started.next = s.next)
    (hh : started.head = update s.head p t) (hl : started.last = s.last) :
    Refines (joinQueue s started (s.head p) t) (a.push p t) := by
  rw [Sched.joinQueue]
  rcases (a.queue p).eq_nil_or_concat' with hq | ⟨ys, l, hq⟩
  · rw [if_pos ((h.queues.head_eq_null p).mpr hq)]
    exact ⟨_, rfl, h.push hal ht hnext hc (.inl ⟨hq, hn, hh⟩) (fun p' _ => by rw [hl])
      (by simp [hl, hlast])⟩
  -- no tail pointer: the walk goes from the head to the last thread, which gets the link
  · have hlal : l ∈ a.alive := h.alive p l (by simp [hq])
    obtain ⟨x, xs, hx⟩ := List.exists_cons_of_ne_nil (show a.queue p ≠ [] by simp [hq])
    have hhead : s.head p = x := h.queues.head_of_cons hx
    have hpath := (h.queues.linked p).path
    rw [hx, hhead] at hpath
    have hlen := h.length_lt p
    rw [hx] at hlen
    have htail := h.tailOf walkFuel hpath (fun y hy => h.alive p y (hx ▸ hy))
      (by rw [walkFuel]; simp at hlen; omega)
    have hlasteq : (x :: xs).getLastD 0 = l := by
      rw [← hx, hq]
      simp
    rw [if_neg fun h0 => by simp [(h.queues.head_eq_null p).mp h0] at hx, hhead, htail, hlasteq,
      Outcome.ok_bind, h.writeNext hlal]
    exact ⟨_, rfl, h.push hal ht hnext rfl (.inr ⟨ys, l, hq, rfl, by funext p'; cases p' <;> rfl⟩)
      (fun p' _ => by cases p' <;> rfl) (by
        have : SchedState.last { s with next := update s.next l t } p = s.last p := by cases p <;> rfl
        simp [this, hlast])⟩

theorem queueSleeper (h : Rep s a) (hfree : ∀ p, a.currentThread ∉ a.queue p) (requestedTime : ℕ) :
    Refines (queueSleeper s requestedTime) ((a.lockScheduler.modify a.currentThread fun t =>
      { t with wakeTime := (a.systemTicks + requestedTime) % 2 ^ 64, state := .sleeping }).push
        .sleeping a.currentThread) := by
  refine h.lockScheduler.bind fun s1 h1 => ?_
  have hcur : s1.currentThread = a.currentThread := h1.current_eq
  obtain ⟨s2, hs2, h2, hn2⟩ := h1.clearNext h.current hfree
  have hticks : s2.systemTicks = a.systemTicks := by rw [h2.common]; rfl
  obtain ⟨s3, hs3, h3, hn3⟩ := h2.modify_next h.current fun t =>
    { t with wakeTime := (a.systemTicks + requestedTime) % 2 ^ 64, state := .sleeping }
  simp only [hcur, hs2, Outcome.ok_bind, hticks, hs3]
  refine h3.joinQueue (p := .sleeping)
    { s3 with sleepingThreadQueue := a.currentThread } h.current hfree (hn3 ▸ hn2) rfl
    rfl rfl ?_ rfl
  funext p
  cases p <;> simp [SchedState.head]

theorem enterSleep (h : Rep s a) (hfree : ∀ p, a.currentThread ∉ a.queue p) (requestedTime : ℕ) :
    Refines (enterSleep s requestedTime) (a.enterSleep requestedTime) := by
  rw [enterSleep_eq_queueSleeper]
  refine (h.queueSleeper hfree requestedTime).bind fun s1 h1 => h1.yield (Plan.yieldable_of_state ?_)
  simp [Plan.push, Plan.modify, Plan.lockScheduler]

theorem queueTerminated (h : Rep s a) (hfree : ∀ p, a.currentThread ∉ a.queue p) :
    Refines (queueTerminated s) ((a.lockScheduler.modify a.currentThread fun t =>
      { t with state := .terminated }).push .terminated a.currentThread) := by
  refine h.lockScheduler.bind fun s1 h1 => ?_
  have hcur : s1.currentThread = a.currentThread := h1.current_eq
  obtain ⟨s2, hs2, h2, hn2⟩ := h1.clearNext h.current hfree
  obtain ⟨s3, hs3, h3, hn3⟩ := h2.modify_next h.current fun t => { t with state := .terminated }
  simp only [hcur, hs2, Outcome.ok_bind, hs3]
  refine h3.joinQueue (p := .terminated)
    { s3 with terminatedThreadQueue := a.currentThread } h.current hfree (hn3 ▸ hn2) rfl
    rfl rfl ?_ rfl
  funext p
  cases p <;> simp [SchedState.head]

theorem enterExit (h : Rep s a) (hfree : ∀ p, a.currentThread ∉ a.queue p) :
    Refines (enterExit s) a.enterExit := by
  rw [enterExit_eq_queueTerminated]
  refine (h.queueTerminated hfree).bind fun s1 h1 => h1.yield (Plan.yieldable_of_state ?_)
  simp [Plan.push, Plan.modify, Plan.lockScheduler]

theorem joinMutex (h : Rep s a) (hal : t ∈ a.alive) (ht : ∀ p, t ∉ a.queue p)
    (hnext : s.next t = 0) (m : ℕ) : Refines (joinMutex s m t) (a.push (.mutex m) t) := by
  refine h.appendTail (q := .mutex m) hal ht hnext rfl ⟨rfl, rfl, ?_, ?_⟩ fun n => ⟨rfl, rfl, ?_, ?_⟩
  all_goals
    funext q
    cases q <;> simp [SchedState.head, SchedState.last, update_apply]
    try (split_ifs <;> rfl)

theorem joinSemaphore (h : Rep s a) (hal : t ∈ a.alive) (ht : ∀ p, t ∉ a.queue p)
    (hnext : s.next t = 0) (m : ℕ) : Refines (joinSemaphore s m t) (a.push (.semaphore m) t) := by
  refine h.appendTail (q := .semaphore m) hal ht hnext rfl ⟨rfl, rfl, ?_, ?_⟩
    fun n => ⟨rfl, rfl, ?_, ?_⟩
  all_goals
    funext q
    cases q <;> simp [SchedState.head, SchedState.last, update_apply]
    try (split_ifs <;> rfl)

theorem blockOnMutex (h : Rep s a) (hfree : ∀ p, a.currentThread ∉ a.queue p) (m : ℕ) :
    Refines (blockOnMutex s m) (a.park (.mutex m) fun t => { t with state := .blocked }) := by
  obtain ⟨s1, hs1, h1, hn1⟩ := h.clearNext h.current hfree
  rw [Sched.blockOnMutex, h.current_eq, hs1, Outcome.ok_bind]
  refine (h1.joinMutex h.current hfree hn1 m).bind fun s2 h2 => (h2.modify h.current _).bind
    fun s3 h3 => h3.yield (Plan.yieldable_of_state ?_)
  simp [Plan.push, Plan.modify]

theorem blockOnSemaphore (h : Rep s a) (hfree : ∀ p, a.currentThread ∉ a.queue p) (m : ℕ) :
    Refines (blockOnSemaphore s m) (a.park (.semaphore m) fun t => { t with state := .blocked }) := by
  obtain ⟨s1, hs1, h1, hn1⟩ := h.clearNext h.current hfree
  rw [Sched.blockOnSemaphore, h.current_eq, hs1, Outcome.ok_bind]
  refine (h1.joinSemaphore h.current hfree hn1 m).bind fun s2 h2 => (h2.modify h.current _).bind
    fun s3 h3 => h3.yield (Plan.yieldable_of_state ?_)
  simp [Plan.push, Plan.modify]

theorem takeMutex (h : Rep s a) (hfree : ∀ p, a.currentThread ∉ a.queue p) (m : ℕ) :
    Refines (takeMutex s m) (a.takeMutex m) := by
  have howner : s.ownerThread m = a.ownerThread m := by rw [h.common]
  rw [Sched.takeMutex, Plan.takeMutex]
  by_cases h0 : a.ownerThread m = 0
  · rw [if_pos (howner.trans h0), if_pos h0]
    exact (h.mapCommon (fun c => { c with ownerThread := update c.ownerThread m c.currentThread })
      (fun _ => rfl) (fun _ => rfl) fun _ => rfl).refines
  · rw [if_neg fun hc => h0 (howner.symm.trans hc), if_neg h0]
    exact h.blockOnMutex hfree m

theorem takeToken (h : Rep s a) (hfree : ∀ p, a.currentThread ∉ a.queue p) (m : ℕ) :
    Refines (takeToken s m) (a.takeToken m) := by
  have hcount : s.currentCount m = a.currentCount m ∧ s.maxCount m = a.maxCount m := by
    rw [h.common]
    exact ⟨rfl, rfl⟩
  rw [Sched.takeToken, Plan.takeToken]
  by_cases hlt : a.currentCount m < a.maxCount m
  · rw [if_pos (by omega), if_pos hlt]
    exact (h.mapCommon (fun c => { c with
      currentCount := update c.currentCount m ((c.currentCount m + 1) % 2 ^ 16) })
      (fun _ => rfl) (fun _ => rfl) fun _ => rfl).refines
  · rw [if_neg (by omega), if_neg hlt]
    exact h.blockOnSemaphore hfree m

/-- A waiter that has left its queue and is marked ready enters its ready queue. -/
theorem promote {p : Place} {s' : SchedState} (h : Rep s a) (ht : t ∈ a.queue p)
    (hlevel : (a.tcb t).priority < 3)
    (h' : Rep s' ((a.modify t fun t => { t with state := .ready }).remove p t)) :
    Refines (do
      let th ← s'.load t
      Sched.enqueueThread s' t th.priority) (a.promote p t) := by
  have hal := h.alive p t ht
  have hprio : (((a.modify t fun t => { t with state := .ready }).remove p t).tcb t).priority =
      (a.tcb t).priority := by simp [Plan.modify, Plan.remove]
  rw [h'.load hal, Outcome.ok_bind, hprio]
  exact h'.enqueueThread hal (h.notMem_remove ht) hlevel

theorem giveMutex (h : Rep s a) (hruns : a.Runs) (hlevel : ∀ t ∈ a.alive, (a.tcb t).priority < 3)
    (m : ℕ) : Refines (giveMutex s m) (a.giveMutex m) := by
  rw [Sched.giveMutex, Plan.giveMutex]
  cases hq : a.queue (.mutex m) with
  | nil =>
    have h0 : s.mutexFirst m = 0 := (h.queues.head_eq_null (.mutex m)).mpr hq
    rw [if_pos h0]
    exact (h.mapCommon (fun c => { c with ownerThread := update c.ownerThread m 0 })
      (fun _ => rfl) (fun _ => rfl) fun _ => rfl).refines
  | cons t ts =>
    have hmem : t ∈ a.queue (.mutex m) := by simp [hq]
    have hal := h.alive _ t hmem
    have hfirst : s.mutexFirst m = t := h.queues.head_of_cons (i := .mutex m) hq
    -- `release_mutex` takes the waiter off before it marks it ready, `release_semaphore` after
    have h1 := h.pop (p := .mutex m)
      { s with mutexFirst := update s.mutexFirst m (s.next t) } hq rfl rfl
      (by funext p; cases p <;> simp [SchedState.head, update_apply]) rfl
    obtain ⟨s2, hs2, h2⟩ := h1.modify hal fun t => { t with state := .ready }
    simp only [hfirst, if_neg (h.nonzero hal), h.readNext hal, Outcome.ok_bind, hs2]
    have hpromote := h.promote hmem (hlevel t hal) h2
    rw [← bind_assoc]
    refine hpromote.bind fun s3 h3 => ?_
    have h4 := h3.mapCommon (fun c => { c with ownerThread := update c.ownerThread m t })
      (fun _ => rfl) (fun _ => rfl) fun _ => rfl
    have hr := hruns.promote hmem
    exact h4.yield (Plan.Runs.yieldable ⟨hr.free, hr.level⟩)

theorem giveToken (h : Rep s a) (hruns : a.Runs) (hlevel : ∀ t ∈ a.alive, (a.tcb t).priority < 3)
    (m : ℕ) : Refines (giveToken s m) (a.giveToken m) := by
  have hcount : s.currentCount m = a.currentCount m := by rw [h.common]
  rw [Sched.giveToken, Plan.giveToken]
  cases hq : a.queue (.semaphore m) with
  | nil =>
    have h0 : s.semFirst m = 0 := (h.queues.head_eq_null (.semaphore m)).mpr hq
    rw [if_pos h0]
    by_cases hc : 0 < a.currentCount m
    · simp only [if_pos (hcount ▸ hc : 0 < s.currentCount m), if_pos hc]
      exact (h.mapCommon (fun c => { c with
        currentCount := update c.currentCount m (c.currentCount m - 1) })
        (fun _ => rfl) (fun _ => rfl) fun _ => rfl).refines
    · simp only [if_neg (hcount ▸ hc : ¬ 0 < s.currentCount m), if_neg hc]
      exact h.refines
  | cons t ts =>
    have hmem : t ∈ a.queue (.semaphore m) := by simp [hq]
    have hal := h.alive _ t hmem
    have hfirst : s.semFirst m = t := h.queues.head_of_cons (i := .semaphore m) hq
    obtain ⟨s1, hs1, h1⟩ := h.modify hal fun t => { t with state := .ready }
    have h2 := h1.pop (p := .semaphore m)
      { s1 with semFirst := update s1.semFirst m (s1.next t) } hq rfl rfl
      (by funext p; cases p <;> simp [SchedState.head, update_apply]) rfl
    simp only [hfirst, if_neg (h.nonzero hal), hs1, Outcome.ok_bind, h1.readNext hal]
    have hpromote := h.promote hmem (hlevel t hal) h2
    rw [← bind_assoc]
    refine hpromote.bind fun s3 h3 => h3.yield ?_
    exact (hruns.promote hmem).yieldable

end Services

end Rep

end KallarOS.Sched
