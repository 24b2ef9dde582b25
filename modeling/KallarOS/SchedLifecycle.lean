import KallarOS.SchedServices

namespace KallarOS.Sched
open Function Chains

namespace Plan

variable {a : Plan} {m : ℕ} {p : Place} {f : Thread → Thread}

/-- A thread that has just put itself into a queue is not queued again. -/
theorem park_yieldable (hp : 0 < a.postponeSwitchesCounter)
    (hf : (f (a.tcb a.currentThread)).state ≠ .running) : (a.park p f).Yieldable := by
  rw [park, yield_of_postponed (by exact hp)]
  refine yieldable_of_state ?_
  change (((a.modify a.currentThread f).tcb) a.currentThread).state ≠ .running
  rwa [tcb_modify_self]

theorem takeMutex_yieldable (h : a.Runs) (hp : 0 < a.postponeSwitchesCounter) :
    (a.takeMutex m).Yieldable := by
  rw [takeMutex]
  split_ifs
  · exact Runs.yieldable ⟨h.free, h.level⟩
  · exact park_yieldable hp (by simp)

theorem takeToken_yieldable (h : a.Runs) (hp : 0 < a.postponeSwitchesCounter) :
    (a.takeToken m).Yieldable := by
  rw [takeToken]
  split_ifs
  · exact Runs.yieldable ⟨h.free, h.level⟩
  · exact park_yieldable hp (by simp)

theorem giveMutex_yieldable (h : a.Runs) (hp : 0 < a.postponeSwitchesCounter) :
    (a.giveMutex m).Yieldable := by
  rw [giveMutex]
  split
  · exact Runs.yieldable ⟨h.free, h.level⟩
  · next t ts hq =>
    have hr := h.promote (p := .mutex m) (t := t) (by simp [hq])
    rw [yield_of_postponed (by exact hp)]
    exact Runs.yieldable ⟨hr.free, hr.level⟩

theorem giveToken_yieldable (h : a.Runs) (hp : 0 < a.postponeSwitchesCounter) :
    (a.giveToken m).Yieldable := by
  rw [giveToken]
  split
  · split_ifs
    · exact Runs.yieldable ⟨h.free, h.level⟩
    · exact h.yieldable
  · next t ts hq =>
    have hr := h.promote (p := .semaphore m) (t := t) (by simp [hq])
    rw [yield_of_postponed (by exact hp)]
    exact Runs.yieldable ⟨hr.free, hr.level⟩

theorem lockAtomic_postponed (h : a.postponeSwitchesCounter = 0) :
    0 < a.lockAtomic.postponeSwitchesCounter := by
  rw [lockAtomic, h]
  exact Nat.one_pos

theorem priority_lockScheduler (t : ℕ) :
    (a.lockScheduler.tcb t).priority = (a.tcb t).priority := by
  simp only [lockScheduler]
  split_ifs with h0
  · by_cases ht : t = a.currentThread <;> simp [ht]
  · rfl

end Plan

namespace Rep

variable {s : SchedState} {a : Plan} {t m : ℕ}

section Sections

theorem enterAcquireMutex (h : Rep s a) (hruns : a.Runs) (hp : a.postponeSwitchesCounter = 0)
    (hm : m ∈ a.mutexes) : Refines (enterAcquireMutex s m) (a.enterAcquireMutex m) := by
  have hms : m ∈ s.mutexes := by rw [h.common]; exact hm
  rw [Sched.enterAcquireMutex, if_neg (not_not_intro hms)]
  refine h.lockAtomic.bind fun s1 h1 => (h1.takeMutex hruns.lockAtomic.free m).bind
    fun s2 h2 => h2.leaveAtomic ?_
  exact Plan.takeMutex_yieldable hruns.lockAtomic (Plan.lockAtomic_postponed hp)

theorem enterAcquireSemaphore (h : Rep s a) (hruns : a.Runs) (hp : a.postponeSwitchesCounter = 0)
    (hm : m ∈ a.semaphores) :
    Refines (enterAcquireSemaphore s m) (a.enterAcquireSemaphore m) := by
  have hms : m ∈ s.semaphores := by rw [h.common]; exact hm
  rw [Sched.enterAcquireSemaphore, if_neg (not_not_intro hms)]
  refine h.lockAtomic.bind fun s1 h1 => (h1.takeToken hruns.lockAtomic.free m).bind
    fun s2 h2 => h2.leaveAtomic ?_
  exact Plan.takeToken_yieldable hruns.lockAtomic (Plan.lockAtomic_postponed hp)

theorem lockAtomic_levels (hlevel : ∀ t ∈ a.alive, (a.tcb t).priority < 3) :
    ∀ t ∈ a.lockAtomic.alive, (a.lockAtomic.tcb t).priority < 3 := by
  intro t ht
  change (a.lockScheduler.tcb t).priority < 3
  rw [Plan.priority_lockScheduler]
  exact hlevel t ht

theorem enterReleaseMutex (h : Rep s a) (hruns : a.Runs) (hp : a.postponeSwitchesCounter = 0)
    (hlevel : ∀ t ∈ a.alive, (a.tcb t).priority < 3) (hm : m ∈ a.mutexes) :
    Refines (enterReleaseMutex s m) (a.enterReleaseMutex m) := by
  have hms : m ∈ s.mutexes := by rw [h.common]; exact hm
  rw [Sched.enterReleaseMutex, if_neg (not_not_intro hms)]
  refine h.lockAtomic.bind fun s1 h1 => (h1.giveMutex hruns.lockAtomic
    (lockAtomic_levels hlevel) m).bind fun s2 h2 => h2.leaveAtomic ?_
  exact Plan.giveMutex_yieldable hruns.lockAtomic (Plan.lockAtomic_postponed hp)

theorem enterReleaseSemaphore (h : Rep s a) (hruns : a.Runs) (hp : a.postponeSwitchesCounter = 0)
    (hlevel : ∀ t ∈ a.alive, (a.tcb t).priority < 3) (hm : m ∈ a.semaphores) :
    Refines (enterReleaseSemaphore s m) (a.enterReleaseSemaphore m) := by
  have hms : m ∈ s.semaphores := by rw [h.common]; exact hm
  rw [Sched.enterReleaseSemaphore, if_neg (not_not_intro hms)]
  refine h.lockAtomic.bind fun s1 h1 => (h1.giveToken hruns.lockAtomic
    (lockAtomic_levels hlevel) m).bind fun s2 h2 => h2.leaveAtomic ?_
  exact Plan.giveToken_yieldable hruns.lockAtomic (Plan.lockAtomic_postponed hp)

end Sections

section Lifecycle

/-- A new control block at an address that holds none. -/
theorem createKernelThread (h : Rep s a) (h0 : t ≠ 0) (hlt : t < 2 ^ 32) (ht : t ∉ a.alive) :
    Refines (createKernelThread s t) (a.createKernelThread t) := by
  have hfree : ∀ p, t ∉ a.queue p := fun p hp => ht (h.alive p t hp)
  have h1 : Rep { s with
        alive := insert t s.alive
        tcb := update s.tcb t (newThread ((s.id + 1) % 2 ^ 32) (s.tcb t))
        id := (s.id + 1) % 2 ^ 32 }
      { a with
        alive := insert t a.alive
        tcb := update a.tcb t (newThread ((a.id + 1) % 2 ^ 32) (a.tcb t))
        id := (a.id + 1) % 2 ^ 32 } := {
    common := by rw [h.common]
    queues := h.queues
    last := h.last
    alive := fun p x hx => Finset.mem_insert_of_mem (h.alive p x hx)
    nonnull := fun hm => by
      rcases Finset.mem_insert.mp hm with hm | hm
      · exact h0 hm.symm
      · exact h.nonnull hm
    lt := fun x hx => by
      rcases Finset.mem_insert.mp hx with rfl | hx
      · exact hlt
      · exact h.lt x hx
    current := Finset.mem_insert_of_mem h.current
    idle := Finset.mem_insert_of_mem h.idle }
  exact h1.enqueueThread (Finset.mem_insert_self _ _) hfree (by omega)

theorem createMutex (h : Rep s a) (hq : a.queue (.mutex m) = []) :
    Rep (createMutex s m) (a.createMutex m) := by
  have h0 : s.mutexFirst m = 0 := (h.queues.head_eq_null (.mutex m)).mpr hq
  have hhead : (Sched.createMutex s m).head = s.head := by
    funext p
    cases p <;> simp only [Sched.createMutex, SchedState.head]
    rw [← h0, update_eq_self]
  exact {
    common := by
      rw [Plan.createMutex, Sched.createMutex]
      simp only [h.common]
    queues := hhead ▸ h.queues
    last := fun p l hl x hx => by
      by_cases hp : p = .mutex m
      · rw [hp] at hx
        simp [Plan.createMutex, hq] at hx
      · refine h.last p l ?_ x hx
        cases p <;> simp_all [Sched.createMutex, SchedState.last]
    alive := h.alive
    nonnull := h.nonnull
    lt := h.lt
    current := h.current
    idle := h.idle }

theorem createSemaphore (h : Rep s a) (hq : a.queue (.semaphore m) = []) (maxCount : ℕ) :
    Rep (createSemaphore s m maxCount) (a.createSemaphore m maxCount) := by
  have h0 : s.semFirst m = 0 := (h.queues.head_eq_null (.semaphore m)).mpr hq
  have hhead : (Sched.createSemaphore s m maxCount).head = s.head := by
    funext p
    cases p <;> simp only [Sched.createSemaphore, SchedState.head]
    rw [← h0, update_eq_self]
  exact {
    common := by
      rw [Plan.createSemaphore, Sched.createSemaphore]
      simp only [h.common]
    queues := hhead ▸ h.queues
    last := fun p l hl x hx => by
      by_cases hp : p = .semaphore m
      · rw [hp] at hx
        simp [Plan.createSemaphore, hq] at hx
      · refine h.last p l ?_ x hx
        cases p <;> simp_all [Sched.createSemaphore, SchedState.last]
    alive := h.alive
    nonnull := h.nonnull
    lt := h.lt
    current := h.current
    idle := h.idle }

/-- The cleaner takes the terminated queue once it is through with its own. -/
theorem detachTerminated (h : Rep s a) (hq : a.queue .detached = []) :
    Refines (detachTerminated s) a.detachTerminated := by
  refine h.lockScheduler.bind fun s1 h1 => ?_
  have hzero : (if s1.terminatedThreadQueue ≠ 0 then 0 else s1.terminatedThreadQueue) = 0 := by
    split_ifs with h0
    · rfl
    · exact not_not.mp h0
  have hmove := h1.queues.move (i := .terminated) (j := .detached) (by simp) hq
  have hrep : Rep { s1 with terminatedThreadQueue := 0, detachedQueue := s1.terminatedThreadQueue }
      { a.lockScheduler with
        queue := update (update a.lockScheduler.queue .detached (a.lockScheduler.queue .terminated))
          .terminated [] } := {
    common := h1.common
    queues := by
      convert hmove using 1
      funext p
      cases p <;> simp [SchedState.head]
    last := fun p l hl x hx => by
      have hnone : ∀ q, (q = .terminated ∨ q = .detached) → s1.last q = none := by
        rintro q (rfl | rfl) <;> rfl
      have hl' : s1.last p = some l := by rw [← hl]; cases p <;> rfl
      simp only [update_apply] at hx
      split_ifs at hx with hp hp'
      · simp at hx
      · rw [hnone p (.inr hp')] at hl'
        cases hl'
      · exact h1.last p l hl' x hx
    alive := fun p x hx => by
      simp only [update_apply] at hx
      split_ifs at hx
      · simp at hx
      · exact h1.alive .terminated x hx
      · exact h1.alive p x hx
    nonnull := h1.nonnull
    lt := h1.lt
    current := h1.current
    idle := h1.idle }
  simp only [hzero]
  exact hrep.unlockScheduler

/-- The cleaner frees the first thread of its list. -/
theorem reapThread (h : Rep s a) {ts : List ℕ} (hq : a.queue .detached = t :: ts)
    (hcur : t ≠ a.currentThread) (hidle : t ≠ a.idleThread) :
    Refines (reapThread s) a.reapThread := by
  have hmem : t ∈ a.queue .detached := by simp [hq]
  have hhead : s.detachedQueue = t := h.queues.head_of_cons (i := .detached) hq
  have h1 := h.pop (p := .detached) { s with detachedQueue := s.next t } hq rfl rfl
    (by funext p; cases p <;> simp [SchedState.head]) rfl
  rw [Sched.reapThread, hhead, h.readNext (h.alive _ t hmem), Outcome.ok_bind, Plan.reapThread, hq,
    List.headD_cons]
  refine ⟨_, rfl, ?_⟩
  exact {
    common := by
      simp only [h.common]
      rfl
    queues := h1.queues
    last := h1.last
    alive := fun p x hx => Finset.mem_erase.mpr
      ⟨fun he => h.notMem_remove hmem p (he ▸ hx), h1.alive p x hx⟩
    nonnull := fun hm => h.nonnull (Finset.mem_of_mem_erase hm)
    lt := fun x hx => h.lt x (Finset.mem_of_mem_erase hx)
    current := Finset.mem_erase.mpr ⟨hcur.symm, h.current⟩
    idle := Finset.mem_erase.mpr ⟨hidle.symm, h.idle⟩ }

end Lifecycle

end Rep

end KallarOS.Sched
