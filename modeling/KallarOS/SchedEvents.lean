import KallarOS.SchedLifecycle
import KallarOS.SchedSteps
import KallarOS.Simulations

namespace KallarOS.Sched
open Function Chains

/-- The scheduler operations, each taken as one atomic step. -/
inductive Event where
  | createKernelThread (thread : ℕ)
  | createMutex (mutex : ℕ)
  | createSemaphore (semaphore maxCount : ℕ)
  | tick
  | threadSleep (requestedTime : ℕ)
  | threadExit
  | acquireMutex (mutex : ℕ)
  | releaseMutex (mutex : ℕ)
  | acquireSemaphore (semaphore : ℕ)
  | releaseSemaphore (semaphore : ℕ)
  | detachTerminated
  | reapThread
deriving DecidableEq

def exec (s : SchedState) : Event → Outcome SchedState
  | .createKernelThread thread => createKernelThread s thread
  | .createMutex mutex => .ok (createMutex s mutex)
  | .createSemaphore semaphore maxCount => .ok (createSemaphore s semaphore maxCount)
  | .tick => apicTimerHandler s
  | .threadSleep requestedTime => threadSleep s requestedTime
  | .threadExit => threadExit s
  | .acquireMutex mutex => acquireMutex s mutex
  | .releaseMutex mutex => releaseMutex s mutex
  | .acquireSemaphore semaphore => acquireSemaphore s semaphore
  | .releaseSemaphore semaphore => releaseSemaphore s semaphore
  | .detachTerminated => detachTerminated s
  | .reapThread => reapThread s

/-- New objects are at addresses `kmalloc` can return, the others exist, and the
cleaner detaches only after it has freed its list. -/
def Event.Fits (s : SchedState) : Event → Prop
  | .createKernelThread thread => thread ≠ 0 ∧ thread < 2 ^ 32 ∧ thread ∉ s.alive
  | .createMutex mutex => mutex ∉ s.mutexes
  | .createSemaphore semaphore maxCount => semaphore ∉ s.semaphores ∧ maxCount < 2 ^ 16
  | .acquireMutex mutex => mutex ∈ s.mutexes
  | .releaseMutex mutex => mutex ∈ s.mutexes
  | .acquireSemaphore semaphore => semaphore ∈ s.semaphores
  | .releaseSemaphore semaphore => semaphore ∈ s.semaphores
  | .threadSleep requestedTime => requestedTime < 2 ^ 32
  | .detachTerminated => s.detachedQueue = 0
  | .reapThread => s.detachedQueue ≠ 0
  | .tick => True
  | .threadExit => True

/-- The current thread may do this next; the idle thread only takes ticks. -/
structure Event.Allowed (e : Event) (s : SchedState) : Prop where
  busy : e ≠ .tick → s.currentThread ≠ s.idleThread
  fits : e.Fits s

namespace Plan

variable {a : Plan} {t m : ℕ}

def step (a : Plan) : Event → Plan
  | .createKernelThread thread => a.createKernelThread thread
  | .createMutex mutex => a.createMutex mutex
  | .createSemaphore semaphore maxCount => a.createSemaphore semaphore maxCount
  | .tick => a.apicTimerHandler
  | .threadSleep requestedTime => (a.enterSleep requestedTime).unlockScheduler
  | .threadExit => a.enterExit.unlockScheduler
  | .acquireMutex mutex => (a.enterAcquireMutex mutex).unlockScheduler
  | .releaseMutex mutex => (a.enterReleaseMutex mutex).unlockScheduler
  | .acquireSemaphore semaphore => (a.enterAcquireSemaphore semaphore).unlockScheduler
  | .releaseSemaphore semaphore => (a.enterReleaseSemaphore semaphore).unlockScheduler
  | .detachTerminated => a.detachTerminated
  | .reapThread => a.reapThread

/-- The state between two operations. -/
structure Resting (a : Plan) : Prop extends Placed a, Unlocked a where
  nonnull : 0 ∉ a.alive

/-- The lock is held and another thread may have taken over. -/
structure Leaving (a : Plan) : Prop extends Placed a, Locked a where
  nonnull : 0 ∉ a.alive

theorem Leaving.unlockScheduler (h : a.Leaving) : a.unlockScheduler.Resting :=
  ⟨h.toPlaced.unlockScheduler, h.toLocked.unlockScheduler, h.nonnull⟩

theorem Resting.lockScheduler (h : a.Resting) : a.lockScheduler.Leaving :=
  ⟨h.toPlaced.lockScheduler, h.toUnlocked.lockScheduler, h.nonnull⟩

theorem Leaving.reschedule (h : a.Leaving) : a.reschedule.Leaving where
  toPlaced := h.toSettled.reschedule h.nonnull fun hr => absurd h.running hr
  toLocked := h.toLocked.reschedule
  nonnull := by rw [(sameObjects_reschedule a).alive]; exact h.nonnull

theorem Resting.blockOn {p : Place} {f : Thread → Thread} (h : a.Resting) (hp : a.Parks p f) :
    (a.blockOn p f).Leaving where
  toPlaced := h.toPlaced.blockOn h.nonnull hp
  toLocked := Locked.blockOn h.toUnlocked
  nonnull := by
    rw [(sameObjects_blockOn a p f).alive]
    exact h.nonnull

section Parking

variable (hbusy : a.currentThread ≠ a.idleThread)
include hbusy

theorem parks_sleeping (wake : ℕ) :
    a.Parks .sleeping fun t => { t with wakeTime := wake, state := .sleeping } :=
  ⟨hbusy, fun _ => rfl, fun _ => rfl, by simp, by simp, by simp⟩

theorem parks_terminated : a.Parks .terminated fun t => { t with state := .terminated } :=
  ⟨hbusy, fun _ => rfl, fun _ => rfl, by simp, by simp, by simp⟩

theorem parks_mutex (hm : m ∈ a.mutexes) : a.Parks (.mutex m) fun t => { t with state := .blocked } :=
  ⟨hbusy, fun _ => rfl, fun _ => rfl, by simp, by simpa using hm, by simp⟩

theorem parks_semaphore (hm : m ∈ a.semaphores) :
    a.Parks (.semaphore m) fun t => { t with state := .blocked } :=
  ⟨hbusy, fun _ => rfl, fun _ => rfl, by simp, by simp, by simpa using hm⟩

end Parking

section Calls

theorem Resting.promoted {p : Place} (h : a.Resting) (ht : t ∈ a.queue p) :
    (a.lockScheduler.promote p t).Leaving := by
  have hl := h.lockScheduler
  exact ⟨hl.toPlaced.promote ht, ⟨hl.irq, hl.postpone, hl.flag⟩, hl.nonnull⟩

theorem Leaving.withOwner (h : a.Leaving) (owner : ℕ → ℕ) :
    Leaving { a with ownerThread := owner } :=
  ⟨h.toPlaced.congr rfl rfl rfl rfl rfl rfl fun _ => ⟨rfl, rfl⟩, ⟨h.irq, h.postpone, h.flag⟩,
    h.nonnull⟩

theorem Leaving.withCount (h : a.Leaving) (count : ℕ → ℕ) :
    Leaving { a with currentCount := count } :=
  ⟨h.toPlaced.congr rfl rfl rfl rfl rfl rfl fun _ => ⟨rfl, rfl⟩, ⟨h.irq, h.postpone, h.flag⟩,
    h.nonnull⟩

theorem Resting.enterSleep (h : a.Resting) (hbusy : a.currentThread ≠ a.idleThread) (d : ℕ) :
    (a.enterSleep d).Leaving := by
  rw [enterSleep_eq h.toUnlocked]
  exact h.blockOn (parks_sleeping hbusy _)

theorem Resting.enterExit (h : a.Resting) (hbusy : a.currentThread ≠ a.idleThread) :
    a.enterExit.Leaving := by
  rw [enterExit_eq h.toUnlocked]
  exact h.blockOn (parks_terminated hbusy)

theorem Resting.enterAcquireMutex (h : a.Resting) (hbusy : a.currentThread ≠ a.idleThread)
    (hm : m ∈ a.mutexes) : (a.enterAcquireMutex m).Leaving := by
  rw [enterAcquireMutex_eq h.toUnlocked]
  split_ifs
  · exact h.lockScheduler.withOwner _
  · exact h.blockOn (parks_mutex hbusy hm)

theorem Resting.enterAcquireSemaphore (h : a.Resting) (hbusy : a.currentThread ≠ a.idleThread)
    (hm : m ∈ a.semaphores) : (a.enterAcquireSemaphore m).Leaving := by
  rw [enterAcquireSemaphore_eq h.toUnlocked]
  split_ifs
  · exact h.lockScheduler.withCount _
  · exact h.blockOn (parks_semaphore hbusy hm)

theorem Resting.enterReleaseMutex (h : a.Resting) (m : ℕ) : (a.enterReleaseMutex m).Leaving := by
  cases hq : a.queue (.mutex m) with
  | nil =>
    rw [enterReleaseMutex_nil h.toUnlocked hq]
    exact h.lockScheduler.withOwner _
  | cons t ts =>
    rw [enterReleaseMutex_cons h.toUnlocked hq]
    exact ((h.promoted (p := .mutex m) (t := t) (by simp [hq])).withOwner _).reschedule

theorem Resting.enterReleaseSemaphore (h : a.Resting) (m : ℕ) :
    (a.enterReleaseSemaphore m).Leaving := by
  cases hq : a.queue (.semaphore m) with
  | nil =>
    rw [enterReleaseSemaphore_nil h.toUnlocked hq]
    split_ifs
    · exact h.lockScheduler.withCount _
    · exact h.lockScheduler
  | cons t ts =>
    rw [enterReleaseSemaphore_cons h.toUnlocked hq]
    exact (h.promoted (p := .semaphore m) (t := t) (by simp [hq])).reschedule

/-- The tick as the code takes it when no lock is held. -/
theorem schedulerOnTick_eq (h : a.Unlocked) : a.schedulerOnTick =
    if a.tickBody.1 then a.tickBody.2.lockScheduler.reschedule.unlockScheduler
    else a.tickBody.2 := by
  rw [schedulerOnTick, enterTick, yield_of_zero (by exact h.tickBody.postpone)]
  by_cases hb : a.tickBody.1 = true
  · rw [if_pos hb, if_pos hb, if_pos rfl]
  · rw [if_neg hb, if_neg hb, if_neg Bool.false_ne_true]

theorem sameObjects_apicTimerHandler (h : a.Unlocked) : SameObjects a a.apicTimerHandler := by
  have hcount : SameObjects a { a with systemTicks := (a.systemTicks + 1) % 2 ^ 64 } :=
    ⟨rfl, rfl, rfl, rfl, rfl, rfl, rfl⟩
  refine hcount.trans ((tickFrame_tickBody _).sameObjects.trans ?_)
  have hunlocked : Unlocked { a with systemTicks := (a.systemTicks + 1) % 2 ^ 64 } :=
    ⟨h.irq, h.postpone, h.flag⟩
  rw [apicTimerHandler, schedulerOnTick_eq hunlocked]
  split_ifs
  · exact (sameObjects_lockScheduler _).trans
      ((sameObjects_reschedule _).trans (sameObjects_unlockScheduler _))
  · exact ⟨rfl, rfl, rfl, rfl, rfl, rfl, rfl⟩

theorem Resting.tickBody (h : a.Resting) : a.tickBody.2.Resting where
  toPlaced := h.toPlaced.tickBody
  toUnlocked := h.toUnlocked.tickBody
  nonnull := by
    rw [a.tickFrame_tickBody]
    exact h.nonnull

theorem Resting.schedulerOnTick (h : a.Resting) : a.schedulerOnTick.Resting := by
  rw [schedulerOnTick_eq h.toUnlocked]
  split_ifs
  · exact h.tickBody.lockScheduler.reschedule.unlockScheduler
  · exact h.tickBody

theorem Resting.countSystemTick (h : a.Resting) :
    Resting { a with systemTicks := (a.systemTicks + 1) % 2 ^ 64 } :=
  ⟨h.toPlaced.congr rfl rfl rfl rfl rfl rfl fun _ => ⟨rfl, rfl⟩, ⟨h.irq, h.postpone, h.flag⟩,
    h.nonnull⟩

end Calls

section Lifecycle

theorem Resting.createKernelThread (h : a.Resting) (h0 : t ≠ 0) (ht : t ∉ a.alive) :
    (a.createKernelThread t).Resting := by
  have hfree : ∀ p, t ∉ a.queue p := fun p hp => ht (h.alive p t hp)
  have hne : ∀ {x}, x ∈ a.alive → x ≠ t := fun hx he => ht (he ▸ hx)
  set c : Plan := { a with
    alive := insert t a.alive
    tcb := update a.tcb t (newThread ((a.id + 1) % 2 ^ 32) (a.tcb t))
    id := (a.id + 1) % 2 ^ 32 } with hc
  have hold : ∀ {x}, x ∈ a.alive → c.tcb x = a.tcb x := fun hx => update_of_ne (hne hx) _ _
  have hbase : c.Base := {
    nodup := h.nodup
    apart := h.apart
    alive := fun p x hx => Finset.mem_insert_of_mem (h.alive p x hx)
    state := fun p x hx => by rw [hold (h.alive p x hx)]; exact h.state p x hx
    level := fun i x hx => by rw [hold (h.alive _ x hx)]; exact h.level i x hx
    levels := fun x hx => by
      rcases Finset.mem_insert.mp hx with rfl | hx
      · simp [hc, newThread]
      · rw [hold hx]
        exact h.levels x hx
    idle_free := h.idle_free
    mutexes := h.mutexes
    semaphores := h.semaphores }
  have hbase' : (c.enqueueThread t 0).Base := hbase.enqueueThread (Finset.mem_insert_self _ _) hfree
    (hne h.idle).symm (by simp [hc, newThread]) (by omega)
  refine ⟨⟨⟨hbase', Finset.mem_insert_of_mem h.current, Finset.mem_insert_of_mem h.idle,
    fun x hx hxi hxc => ?_, ?_⟩, ?_⟩, ⟨h.irq, h.postpone, h.flag⟩, ?_⟩
  · rcases Finset.mem_insert.mp hx with rfl | hx
    · exact ⟨.ready 0, mem_enqueueThread.mpr (.inr ⟨rfl, rfl⟩)⟩
    · obtain ⟨p, hp⟩ := h.waits x hx hxi hxc
      exact ⟨p, mem_enqueueThread.mpr (.inl hp)⟩
  · change ((c.enqueueThread t 0).tcb a.idleThread).state = _ → _
    rw [tcb_enqueueThread_of_ne (hne h.idle), hold h.idle]
    exact h.calm
  · change ((c.enqueueThread t 0).tcb a.currentThread).state = _
    rw [tcb_enqueueThread_of_ne (hne h.current), hold h.current]
    exact h.running
  · intro hm
    rcases Finset.mem_insert.mp hm with hm | hm
    · exact h0 hm.symm
    · exact h.nonnull hm

theorem Resting.createMutex (h : a.Resting) (m : ℕ) : (a.createMutex m).Resting where
  toPlaced := {
    h with mutexes := fun m' hm' => Finset.mem_insert_of_mem (h.mutexes m' hm') }
  toUnlocked := ⟨h.irq, h.postpone, h.flag⟩
  nonnull := h.nonnull

theorem Resting.createSemaphore (h : a.Resting) (m maxCount : ℕ) :
    (a.createSemaphore m maxCount).Resting where
  toPlaced := {
    h with semaphores := fun m' hm' => Finset.mem_insert_of_mem (h.semaphores m' hm') }
  toUnlocked := ⟨h.irq, h.postpone, h.flag⟩
  nonnull := h.nonnull

/-- The terminated threads change hands. -/
def detach (a : Plan) : Plan :=
  { a with queue := update (update a.queue .detached (a.queue .terminated)) .terminated [] }

theorem mem_detach {p : Place} (hq : a.queue .detached = []) : t ∈ a.detach.queue p ↔
    (p = .detached ∧ t ∈ a.queue .terminated) ∨ (p ≠ .terminated ∧ t ∈ a.queue p) := by
  simp only [detach, update_apply]
  split_ifs with h1 h2
  · simp [h1]
  · simp [h2, hq]
  · simp [h1, h2]

theorem Placed.detach (h : a.Placed) (hq : a.queue .detached = []) : a.detach.Placed where
  nodup p := by
    simp only [Plan.detach, update_apply]
    split_ifs
    · exact List.nodup_nil
    · exact h.nodup _
    · exact h.nodup p
  apart p p' x hx hx' := by
    rcases (mem_detach hq).mp hx with ⟨rfl, hx⟩ | ⟨hp, hx⟩ <;>
      rcases (mem_detach hq).mp hx' with ⟨rfl, hx'⟩ | ⟨hp', hx'⟩
    · rfl
    · exact absurd (h.apart _ _ x hx' hx) hp'
    · exact absurd (h.apart _ _ x hx hx') hp
    · exact h.apart p p' x hx hx'
  alive p x hx := by
    rcases (mem_detach hq).mp hx with ⟨-, hx⟩ | ⟨-, hx⟩ <;> exact h.alive _ x hx
  state p x hx := by
    rcases (mem_detach hq).mp hx with ⟨rfl, hx⟩ | ⟨-, hx⟩
    · exact h.state .terminated x hx
    · exact h.state p x hx
  level i x hx := by
    rcases (mem_detach hq).mp hx with ⟨hp, -⟩ | ⟨-, hx⟩
    · cases hp
    · exact h.level i x hx
  levels := h.levels
  idle_free p hm := by
    rcases (mem_detach hq).mp hm with ⟨-, hm⟩ | ⟨-, hm⟩ <;> exact h.idle_free _ hm
  mutexes m hm := h.mutexes m hm
  semaphores m hm := h.semaphores m hm
  current := h.current
  idle := h.idle
  waits x hx hxi hxc := by
    obtain ⟨p, hp⟩ := h.waits x hx hxi hxc
    by_cases hpt : p = .terminated
    · exact ⟨.detached, (mem_detach hq).mpr (.inl ⟨rfl, hpt ▸ hp⟩)⟩
    · exact ⟨p, (mem_detach hq).mpr (.inr ⟨hpt, hp⟩)⟩
  calm := h.calm
  running := h.running

theorem Resting.detachTerminated (h : a.Resting) (hq : a.queue .detached = []) :
    a.detachTerminated.Resting := by
  have hl := h.lockScheduler
  exact Leaving.unlockScheduler ⟨hl.toPlaced.detach hq, ⟨hl.irq, hl.postpone, hl.flag⟩, hl.nonnull⟩

/-- A detached thread is not the current one. -/
theorem Placed.reaped_ne (h : a.Placed) (ht : t ∈ a.queue .detached) :
    t ≠ a.currentThread ∧ t ≠ a.idleThread :=
  ⟨fun he => h.free .detached (he ▸ ht), fun he => h.idle_free .detached (he ▸ ht)⟩

theorem Resting.reapThread {ts : List ℕ} (h : a.Resting) (hq : a.queue .detached = t :: ts) :
    a.reapThread.Resting := by
  have hmem : t ∈ a.queue .detached := by simp [hq]
  obtain ⟨hcur, hidle⟩ := h.reaped_ne hmem
  have hr := h.toBase.remove .detached t
  have hfree := h.toBase.notMem_remove hmem
  rw [Plan.reapThread, hq, List.headD_cons]
  exact {
    nodup := hr.nodup
    apart := hr.apart
    alive := fun p x hx => Finset.mem_erase.mpr ⟨fun he => hfree p (he ▸ hx), hr.alive p x hx⟩
    state := hr.state
    level := hr.level
    levels := fun x hx => hr.levels x (Finset.mem_of_mem_erase hx)
    idle_free := hr.idle_free
    mutexes := hr.mutexes
    semaphores := hr.semaphores
    current := Finset.mem_erase.mpr ⟨hcur.symm, h.current⟩
    idle := Finset.mem_erase.mpr ⟨hidle.symm, h.idle⟩
    waits := fun x hx hxi hxc => by
      obtain ⟨hxt, hx⟩ := Finset.mem_erase.mp hx
      obtain ⟨p, hp⟩ := h.waits x hx hxi hxc
      refine ⟨p, ?_⟩
      simp only [Plan.remove, update_apply]
      split_ifs with hpp
      · exact (List.mem_erase_of_ne hxt).mpr (hpp ▸ hp)
      · exact hp
    calm := h.calm
    running := h.running
    irq := h.irq
    postpone := h.postpone
    flag := h.flag
    nonnull := fun hm => h.nonnull (Finset.mem_of_mem_erase hm) }

end Lifecycle

end Plan

namespace Plan

variable {a : Plan} {e : Event}

/-- `Event.Fits` on lists. -/
def Fits (a : Plan) : Event → Prop
  | .createKernelThread thread => thread ≠ 0 ∧ thread < 2 ^ 32 ∧ thread ∉ a.alive
  | .createMutex mutex => mutex ∉ a.mutexes
  | .createSemaphore semaphore maxCount => semaphore ∉ a.semaphores ∧ maxCount < 2 ^ 16
  | .acquireMutex mutex => mutex ∈ a.mutexes
  | .releaseMutex mutex => mutex ∈ a.mutexes
  | .acquireSemaphore semaphore => semaphore ∈ a.semaphores
  | .releaseSemaphore semaphore => semaphore ∈ a.semaphores
  | .threadSleep requestedTime => requestedTime < 2 ^ 32
  | .detachTerminated => a.queue .detached = []
  | .reapThread => a.queue .detached ≠ []
  | .tick => True
  | .threadExit => True

structure Allowed (a : Plan) (e : Event) : Prop where
  busy : e ≠ .tick → a.currentThread ≠ a.idleThread
  fits : a.Fits e

instance (a : Plan) : (e : Event) → Decidable (a.Fits e)
  | .createKernelThread _ => inferInstanceAs (Decidable (_ ∧ _))
  | .createMutex _ => inferInstanceAs (Decidable (_ ∉ _))
  | .createSemaphore _ _ => inferInstanceAs (Decidable (_ ∧ _))
  | .acquireMutex _ => inferInstanceAs (Decidable (_ ∈ _))
  | .releaseMutex _ => inferInstanceAs (Decidable (_ ∈ _))
  | .acquireSemaphore _ => inferInstanceAs (Decidable (_ ∈ _))
  | .releaseSemaphore _ => inferInstanceAs (Decidable (_ ∈ _))
  | .threadSleep _ => inferInstanceAs (Decidable (_ < _))
  | .detachTerminated => inferInstanceAs (Decidable (_ = _))
  | .reapThread => inferInstanceAs (Decidable (_ ≠ _))
  | .tick => inferInstanceAs (Decidable True)
  | .threadExit => inferInstanceAs (Decidable True)

instance (a : Plan) (e : Event) : Decidable (a.Allowed e) :=
  decidable_of_iff ((e ≠ .tick → a.currentThread ≠ a.idleThread) ∧ a.Fits e)
    ⟨fun h => ⟨h.1, h.2⟩, fun h => ⟨h.busy, h.fits⟩⟩

/-- The events can happen one after the other. -/
abbrev AllowsAll : Plan → List Event → Prop := Along step Allowed

/-- Every operation leaves the state in order. -/
theorem Resting.step (h : a.Resting) (he : a.Allowed e) : (a.step e).Resting := by
  have hfits := he.fits
  cases e with
  | createKernelThread t => exact h.createKernelThread hfits.1 hfits.2.2
  | createMutex m => exact h.createMutex m
  | createSemaphore m maxCount => exact h.createSemaphore m maxCount
  | tick => exact h.countSystemTick.schedulerOnTick
  | threadSleep d => exact (h.enterSleep (he.busy (by simp)) d).unlockScheduler
  | threadExit => exact (h.enterExit (he.busy (by simp))).unlockScheduler
  | acquireMutex m => exact (h.enterAcquireMutex (he.busy (by simp)) hfits).unlockScheduler
  | releaseMutex m => exact (h.enterReleaseMutex m).unlockScheduler
  | acquireSemaphore m => exact (h.enterAcquireSemaphore (he.busy (by simp)) hfits).unlockScheduler
  | releaseSemaphore m => exact (h.enterReleaseSemaphore m).unlockScheduler
  | detachTerminated => exact h.detachTerminated hfits
  | reapThread =>
    obtain ⟨t, ts, hq⟩ := List.exists_cons_of_ne_nil hfits
    exact h.reapThread hq

end Plan

section Refinement

variable {s s' : SchedState} {a : Plan} {e : Event}

/-- The pointers represent a list state between two operations. -/
structure Steady (s : SchedState) (a : Plan) : Prop where
  rep : Rep s a
  resting : a.Resting

theorem Rep.detachedQueue_eq_zero (h : Rep s a) : s.detachedQueue = 0 ↔ a.queue .detached = [] :=
  h.queues.head_eq_null .detached

theorem Rep.allowed (h : Rep s a) : e.Allowed s ↔ a.Allowed e := by
  have halive := h.alive_eq
  have hmutexes : s.mutexes = a.mutexes := congrArg Common.mutexes h.common
  have hsemaphores : s.semaphores = a.semaphores := congrArg Common.semaphores h.common
  have hfits : e.Fits s ↔ a.Fits e := by
    cases e
    case detachTerminated => exact h.detachedQueue_eq_zero
    case reapThread => exact not_congr h.detachedQueue_eq_zero
    all_goals simp only [Plan.Fits, Event.Fits, halive, hmutexes, hsemaphores]
  have hbusy : s.currentThread ≠ s.idleThread ↔ a.currentThread ≠ a.idleThread := by
    rw [h.current_eq, h.idle_eq]
  exact ⟨fun he => ⟨fun ht => hbusy.mp (he.busy ht), hfits.mp he.fits⟩,
    fun he => ⟨fun ht => hbusy.mpr (he.busy ht), hfits.mpr he.fits⟩⟩

theorem Rep.unlock {x : Outcome SchedState} {b : Plan} (hx : Refines x b) :
    Refines (x >>= Sched.unlockScheduler) b.unlockScheduler :=
  hx.bind fun _ h1 => h1.unlockScheduler

/-- Every allowed operation returns and does what the list model does. -/
theorem Steady.refines (h : Steady s a) (he : a.Allowed e) :
    Refines (Sched.exec s e) (a.step e) := by
  obtain ⟨hrep, hrest⟩ := h
  have hruns := hrest.toPlaced.runs
  have hfits := he.fits
  cases e with
  | createKernelThread t => exact hrep.createKernelThread hfits.1 hfits.2.1 hfits.2.2
  | createMutex m =>
    exact (hrep.createMutex (not_not.mp fun hne => hfits (hrest.mutexes m hne))).refines
  | createSemaphore m maxCount =>
    refine (hrep.createSemaphore ?_ maxCount).refines
    exact not_not.mp fun hne => hfits.1 (hrest.semaphores m hne)
  | tick =>
    have hbody := hrest.countSystemTick.tickBody.lockScheduler
    exact hrep.countSystemTick.schedulerOnTick hbody.toPlaced.runs.yieldable
  | threadSleep d => exact Rep.unlock (hrep.enterSleep hruns.free d)
  | threadExit => exact Rep.unlock (hrep.enterExit hruns.free)
  | acquireMutex m => exact Rep.unlock (hrep.enterAcquireMutex hruns hrest.postpone hfits)
  | releaseMutex m =>
    exact Rep.unlock (hrep.enterReleaseMutex hruns hrest.postpone hrest.levels hfits)
  | acquireSemaphore m => exact Rep.unlock (hrep.enterAcquireSemaphore hruns hrest.postpone hfits)
  | releaseSemaphore m =>
    exact Rep.unlock (hrep.enterReleaseSemaphore hruns hrest.postpone hrest.levels hfits)
  | detachTerminated => exact hrep.detachTerminated hfits
  | reapThread =>
    obtain ⟨t, ts, hq⟩ := List.exists_cons_of_ne_nil hfits
    obtain ⟨hcur, hidle⟩ := hrest.reaped_ne (t := t) (by simp [hq])
    exact hrep.reapThread hq hcur hidle

theorem Steady.exec (h : Steady s a) (he : e.Allowed s) :
    ∃ s', exec s e = .ok s' ∧ Steady s' (a.step e) := by
  have ha := h.rep.allowed.mp he
  obtain ⟨s', hs', hrep⟩ := h.refines ha
  exact ⟨s', hs', hrep, h.resting.step ha⟩

end Refinement

end KallarOS.Sched
