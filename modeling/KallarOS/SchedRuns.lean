import KallarOS.SchedEvents

namespace KallarOS.Sched
open Function Chains Relation

section Boot

/-- Before `initialize_multitasking` the globals are zero and nothing is allocated;
control blocks and links may hold anything. -/
structure Boot (s : SchedState) : Prop where
  alive : s.alive = ∅
  head : ∀ p, s.head p = 0
  mutexes : s.mutexes = ∅
  semaphores : s.semaphores = ∅
  irq : s.irqDisableCounter = 0
  postpone : s.postponeSwitchesCounter = 0
  flag : s.postponedYieldFlag = 0

/-- Different blocks, as `kmalloc` returns them. -/
structure Blocks (root idle cleaner : ℕ) : Prop where
  root_addr : 0 < root ∧ root < 2 ^ 32
  idle_addr : 0 < idle ∧ idle < 2 ^ 32
  cleaner_addr : 0 < cleaner ∧ cleaner < 2 ^ 32
  apart : root ≠ idle ∧ root ≠ cleaner ∧ idle ≠ cleaner

/-- `initialize_multitasking` up to its call of `create_kernel_thread`. -/
def initialState (s : SchedState) (root idle : ℕ) : SchedState :=
  { s with
    alive := insert idle (insert root s.alive)
    tcb := update (update s.tcb root (rootThread (s.tcb root))) idle (idleThreadBlock (s.tcb idle))
    currentThread := root
    idleThread := idle }

def initialPlan (s : SchedState) (root idle : ℕ) : Plan :=
  ⟨(initialState s root idle).toCommon, fun _ => []⟩

variable {s : SchedState} {root idle cleaner : ℕ}

theorem mem_initialState (hb : Boot s) {t : ℕ} :
    t ∈ (initialState s root idle).alive ↔ t = idle ∨ t = root := by
  simp [initialState, hb.alive]

theorem initialState_rep (hb : Boot s) (hm : Blocks root idle cleaner) :
    Rep (initialState s root idle) (initialPlan s root idle) where
  common := rfl
  queues := ⟨fun p => ⟨hb.head p, by simp [initialPlan]⟩, fun p => List.nodup_nil, by simp [initialPlan]⟩
  last := by simp [initialPlan]
  alive := by simp [initialPlan]
  nonnull h0 := by
    have := hm.root_addr
    have := hm.idle_addr
    rcases (mem_initialState hb).mp h0 with h0 | h0 <;> omega
  lt t ht := by
    rcases (mem_initialState hb).mp ht with rfl | rfl
    · exact hm.idle_addr.2
    · exact hm.root_addr.2
  current := (mem_initialState hb).mpr (.inr rfl)
  idle := (mem_initialState hb).mpr (.inl rfl)

theorem initialPlan_resting (hb : Boot s) (hm : Blocks root idle cleaner) :
    (initialPlan s root idle).Resting where
  nodup p := List.nodup_nil
  apart := by simp [initialPlan]
  alive := by simp [initialPlan]
  state := by simp [initialPlan]
  level := by simp [initialPlan]
  levels t ht := by
    rcases (mem_initialState hb).mp ht with rfl | rfl
    · simp [initialPlan, initialState, idleThreadBlock]
    · simp [initialPlan, initialState, hm.apart.1, rootThread]
  idle_free := by simp [initialPlan]
  mutexes := by simp [initialPlan]
  semaphores := by simp [initialPlan]
  current := (mem_initialState hb).mpr (.inr rfl)
  idle := (mem_initialState hb).mpr (.inl rfl)
  waits t ht hi hc := by
    rcases (mem_initialState hb).mp ht with rfl | rfl
    · exact absurd rfl hi
    · exact absurd rfl hc
  calm h := by simp [initialPlan, initialState, idleThreadBlock] at h
  running := by simp [initialPlan, initialState, hm.apart.1, rootThread]
  irq := hb.irq
  postpone := hb.postpone
  flag := hb.flag
  nonnull := (initialState_rep hb hm).nonnull

/-- The plan `initialize_multitasking` leaves. -/
def startPlan (s : SchedState) (root idle cleaner : ℕ) : Plan :=
  (initialPlan s root idle).createKernelThread cleaner

theorem initializeMultitasking_steady (hb : Boot s) (hm : Blocks root idle cleaner) :
    ∃ s', initializeMultitasking s root idle cleaner = .ok s' ∧
      Steady s' (startPlan s root idle cleaner) := by
  have hnew : cleaner ∉ (initialPlan s root idle).alive := fun h => by
    rcases (mem_initialState hb).mp h with h | h
    · exact hm.apart.2.2 h.symm
    · exact hm.apart.2.1 h.symm
  have h0 : cleaner ≠ 0 := by
    have := hm.cleaner_addr
    omega
  obtain ⟨s', hs', hrep⟩ := (initialState_rep hb hm).createKernelThread h0 hm.cleaner_addr.2 hnew
  exact ⟨s', hs', hrep, (initialPlan_resting hb hm).createKernelThread h0 hnew⟩

end Boot

section Runs

/-- One operation of the current thread. -/
def Step (s s' : SchedState) : Prop := ∃ e : Event, e.Allowed s ∧ exec s e = .ok s'

variable {s s' : SchedState} {a : Plan}

theorem Steady.step {e : Event} (h : Steady s a) (he : e.Allowed s) (hok : Sched.exec s e = .ok s') :
    Steady s' (a.step e) := by
  obtain ⟨s'', hs'', h'⟩ := h.exec he
  cases hs''.symm.trans hok
  exact h'

theorem Steady.run (h : Steady s a) (hr : ReflTransGen Step s s') : ∃ a', Steady s' a' := by
  induction hr with
  | refl => exact ⟨a, h⟩
  | tail _ hstep ih =>
    obtain ⟨a', h'⟩ := ih
    obtain ⟨e, he, hok⟩ := hstep
    exact ⟨_, h'.step he hok⟩

/-- What the list model allows, the pointers do. -/
theorem Steady.exists_step {e : Event} (h : Steady s a) (he : a.Allowed e) :
    ∃ s', (e.Allowed s ∧ Sched.exec s e = .ok s') ∧ Steady s' (a.step e) := by
  have he' := h.rep.allowed.mpr he
  obtain ⟨s', hs', h'⟩ := h.exec he'
  exact ⟨s', ⟨he', hs'⟩, h'⟩

/-- A run of the list model is a run of the pointers. -/
theorem Steady.follow (h : Steady s a) (es : List Event) (hes : a.AllowsAll es) :
    ∃ s', ReflTransGen Step s s' ∧ Steady s' (es.foldl Plan.step a) := by
  refine hes.follow (fun h he => ?_) h
  obtain ⟨s', hs', h'⟩ := h.exists_step he
  exact ⟨s', ⟨_, hs'⟩, h'⟩

end Runs

section Placement

/-- Where the threads are: `q` lists each queue. -/
structure Placement (s : SchedState) (q : Place → List ℕ) : Prop where
  linked : ∀ p, Linked 0 s.next (s.head p) (q p)
  nodup : ∀ p, (q p).Nodup
  alive : ∀ p, ∀ t ∈ q p, t ∈ s.alive
  placed : ∀ t ∈ s.alive, t ≠ s.idleThread →
    (t = s.currentThread ∧ (s.tcb t).state = .running ∧ ∀ p, t ∉ q p) ∨
    (t ≠ s.currentThread ∧ ∃ p, t ∈ q p ∧ (∀ p', t ∈ q p' → p' = p) ∧
      (s.tcb t).state = p.state ∧ ∀ i, p = .ready i → i < 3 ∧ (s.tcb t).priority = i)
  idle_free : ∀ p, s.idleThread ∉ q p
  current : s.currentThread ∈ s.alive
  running : ∀ t ∈ s.alive, (s.tcb t).state = .running ↔ t = s.currentThread

theorem Rep.placement {s : SchedState} {a : Plan} (hrep : Rep s a) (hrest : a.Placed) :
    Placement s a.queue := by
  have hal := hrep.alive_eq
  have htcb := hrep.tcb_eq
  have hcur := hrep.current_eq
  refine ⟨hrep.queues.linked, hrest.nodup, ?_, fun t ht hidle => ?_, ?_, ?_, ?_⟩
  · rw [hal]
    exact hrest.alive
  · rw [hal] at ht
    rw [hrep.idle_eq] at hidle
    rw [htcb, hcur]
    by_cases hc : t = a.currentThread
    · exact .inl ⟨hc, hc ▸ hrest.running, hc ▸ hrest.free⟩
    · obtain ⟨p, hp⟩ := hrest.waits t ht hidle hc
      refine .inr ⟨hc, p, hp, fun p' hp' => hrest.apart p' p t hp' hp, hrest.state p t hp, ?_⟩
      rintro i rfl
      have hlevel := hrest.level i t hp
      exact ⟨hlevel ▸ hrest.levels t ht, hlevel⟩
  · rw [hrep.idle_eq]
    exact hrest.idle_free
  · rw [hal, hcur]
    exact hrest.current
  · rw [hal, htcb, hcur]
    exact fun t ht => hrest.running_iff ht

theorem Steady.placement {s : SchedState} {a : Plan} (h : Steady s a) : Placement s a.queue :=
  h.rep.placement h.resting.toPlaced

/-- From `initialize_multitasking` on every operation returns, and after it every
thread is in exactly one place that fits its state. -/
theorem threads_placed {s : SchedState} {root idle cleaner : ℕ} (hb : Boot s)
    (hm : Blocks root idle cleaner) :
    ∃ s₀, initializeMultitasking s root idle cleaner = .ok s₀ ∧
      ∀ s', ReflTransGen Step s₀ s' →
        (∃ q : Place → List ℕ, Placement s' q) ∧
        ∀ e : Event, e.Allowed s' → ∃ s'', exec s' e = .ok s'' := by
  obtain ⟨s₀, hs₀, h₀⟩ := initializeMultitasking_steady hb hm
  refine ⟨s₀, hs₀, fun s' hr => ?_⟩
  obtain ⟨a, h⟩ := h₀.run hr
  refine ⟨⟨a.queue, h.placement⟩, fun e he => ?_⟩
  obtain ⟨s'', hs'', -⟩ := h.exec he
  exact ⟨s'', hs''⟩

def blankThread : Thread := ⟨.ready, 0, 0, 0, 0, 0, 0, 0⟩

/-- All of memory zero. -/
def zeroState : SchedState where
  tcb _ := blankThread
  alive := ∅
  currentThread := 0
  idleThread := 0
  id := 1
  irqDisableCounter := 0
  counter := 0
  postponedYieldFlag := 0
  postponeSwitchesCounter := 0
  systemTicks := 0
  eflags := 0x202#32
  mutexes := ∅
  ownerThread _ := 0
  semaphores := ∅
  maxCount _ := 0
  currentCount _ := 0
  next _ := 0
  firstReady _ := 0
  lastReady _ := 0
  sleepingThreadQueue := 0
  terminatedThreadQueue := 0
  detachedQueue := 0
  mutexFirst _ := 0
  mutexLast _ := 0
  semFirst _ := 0
  semLast _ := 0

theorem zeroState_boot : Boot zeroState :=
  ⟨rfl, fun p => by cases p <;> rfl, rfl, rfl, rfl, rfl, rfl⟩

theorem sampleBlocks : Blocks 16 32 48 :=
  ⟨by decide, by decide, by decide, by decide⟩

/-- The root thread owns a mutex and sleeps, the cleaner blocks on it, and the new
thread is ticked. -/
def sampleEvents : List Event :=
  [.createMutex 64, .acquireMutex 64, .createKernelThread 80, .threadSleep 3, .acquireMutex 64, .tick]

theorem threads_placed_sample :
    ∃ s₀ s', initializeMultitasking zeroState 16 32 48 = .ok s₀ ∧ ReflTransGen Step s₀ s' ∧
      s'.currentThread = 80 ∧ (s'.tcb 16).state = .sleeping ∧ (s'.tcb 48).state = .blocked ∧
      s'.systemTicks = 1 ∧ ∃ q : Place → List ℕ, Placement s' q := by
  obtain ⟨s₀, hs₀, hrun⟩ := threads_placed zeroState_boot sampleBlocks
  obtain ⟨s, hs, h₀⟩ := initializeMultitasking_steady zeroState_boot sampleBlocks
  cases hs.symm.trans hs₀
  obtain ⟨s', hr, h⟩ := h₀.follow sampleEvents (by decide)
  refine ⟨s₀, s', hs₀, hr, ?_, ?_, ?_, ?_, (hrun s' hr).1⟩
  · rw [h.rep.current_eq]
    decide
  · rw [h.rep.tcb_eq]
    decide
  · rw [h.rep.tcb_eq]
    decide
  · rw [h.rep.common]
    decide

end Placement

end KallarOS.Sched
