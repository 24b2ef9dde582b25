import KallarOS.SchedHandover
import KallarOS.SchedReaping
import KallarOS.Tokens

namespace KallarOS.Sched
open Function Tokens

/-- The call that takes a lock. -/
def Lock.acquire : Lock → Event
  | mutex m => .acquireMutex m
  | semaphore m => .acquireSemaphore m

theorem Lock.acquire_ne_threadExit (k : Lock) : k.acquire ≠ .threadExit := by
  cases k <;> simp [Lock.acquire]

theorem Lock.release_ne_threadExit (k : Lock) : k.release ≠ .threadExit := by
  cases k <;> simp [Lock.release]

/-- The calls that make a lock anew. -/
def Lock.Created (e : Event) : Lock → Prop
  | mutex m => e = .createMutex m
  | semaphore m => ∃ maxCount, e = .createSemaphore m maxCount

namespace Locks

variable {l : Locks} {k : Lock} {t : ℕ} {e : Event}

def capacity (l : Locks) : Lock → ℕ
  | .mutex _ => 1
  | .semaphore m => l.max m

/-- A mutex is a lock with one token, which its owner has. -/
def bank (l : Locks) : Lock → Bank ℕ
  | .mutex m => ⟨if l.owner m = 0 then 0 else 1, l.waiters (.mutex m)⟩
  | .semaphore m => ⟨l.count m, l.waiters (.semaphore m)⟩

@[simp]
theorem waiters_bank (l : Locks) (k : Lock) : (l.bank k).waiters = l.waiters k := by cases k <;> rfl

theorem bank_congr {l' : Locks} (hw : l'.waiters k = l.waiters k) (ho : l'.owner = l.owner)
    (hc : l'.count = l.count) : l'.bank k = l.bank k := by
  cases k with
  | mutex m => rw [bank, bank, hw, ho]
  | semaphore m => rw [bank, bank, hw, hc]

/-- Both kinds of lock are taken alike. -/
theorem bank_acquire (ht : t ≠ 0) (hcap : l.capacity k < 2 ^ 16) :
    (l.step t k.acquire).bank k = (l.bank k).acquire (l.capacity k) t := by
  cases k with
  | mutex m =>
    by_cases h0 : l.owner m = 0
    · simp [Lock.acquire, step, bank, Bank.acquire, capacity, h0, ht]
    · simp [Lock.acquire, step, bank, Bank.acquire, capacity, h0, wait]
  | semaphore m =>
    by_cases hlt : l.count m < l.max m
    · have hsucc : l.count m + 1 < 2 ^ 16 := by
        change l.max m < 2 ^ 16 at hcap
        omega
      simpa [Lock.acquire, step, bank, Bank.acquire, capacity, hlt] using hsucc
    · simp [Lock.acquire, step, bank, Bank.acquire, capacity, hlt, wait]

/-- And given back alike: `release_mutex` makes the first waiter the owner. -/
theorem bank_release (h0 : 0 ∉ l.waiters k) (hout : l.waiters k ≠ [] → 0 < (l.bank k).taken) :
    (l.step t k.release).bank k = (l.bank k).release := by
  cases k with
  | mutex m =>
    cases hq : l.waiters (.mutex m) with
    | nil =>
      simp [Lock.release, step, bank, Bank.release, wake, hq]
      split_ifs <;> rfl
    | cons u us =>
      have hu : u ≠ 0 := by
        rintro rfl
        apply h0
        rw [hq]
        exact List.mem_cons_self
      have howner : l.owner m ≠ 0 := by
        intro hz
        have hpos := hout (by simp [hq])
        simp [bank, hz] at hpos
      simp [Lock.release, step, bank, Bank.release, wake, hq, hu, howner]
  | semaphore m =>
    by_cases hq : l.waiters (.semaphore m) = []
    · simp [Lock.release, step, bank, Bank.release, hq]
    · simp [Lock.release, step, bank, Bank.release, hq, wake]

/-- Calls about other locks. -/
theorem bank_other (ha : e ≠ k.acquire) (hr : e ≠ k.release) (hc : ¬ k.Created e) :
    (l.step t e).bank k = l.bank k ∧ (l.step t e).capacity k = l.capacity k := by
  have hwait : ∀ k', k ≠ k' → (l.wait k' t).bank k = l.bank k := by
    intro k' hk
    exact bank_congr (waiters_wait_of_ne hk) rfl rfl
  cases e with
  | createMutex m =>
    cases k with
    | mutex m' =>
      have hm : m' ≠ m := fun hm => hc (by rw [hm]; rfl)
      exact ⟨by simp [step, bank, hm], rfl⟩
    | semaphore m' => exact ⟨rfl, rfl⟩
  | createSemaphore m maxCount =>
    cases k with
    | mutex m' => exact ⟨rfl, rfl⟩
    | semaphore m' =>
      have hm : m' ≠ m := fun hm => hc ⟨maxCount, by rw [hm]⟩
      exact ⟨by simp [step, bank, hm], by simp [step, capacity, hm]⟩
  | acquireMutex m =>
    have hk : k ≠ .mutex m := fun hk => ha (by rw [hk]; rfl)
    rw [step]
    split_ifs
    · cases k with
      | mutex m' =>
        have hm : m' ≠ m := fun hm => hk (by rw [hm])
        exact ⟨by simp [bank, hm], rfl⟩
      | semaphore m' => exact ⟨rfl, rfl⟩
    · exact ⟨hwait _ hk, by cases k <;> rfl⟩
  | acquireSemaphore m =>
    have hk : k ≠ .semaphore m := fun hk => ha (by rw [hk]; rfl)
    rw [step]
    split_ifs
    · cases k with
      | mutex m' => exact ⟨rfl, rfl⟩
      | semaphore m' =>
        have hm : m' ≠ m := fun hm => hk (by rw [hm])
        exact ⟨by simp [bank, hm], rfl⟩
    · exact ⟨hwait _ hk, by cases k <;> rfl⟩
  | releaseMutex m =>
    have hk : k ≠ .mutex m := fun hk => hr (by rw [hk]; rfl)
    cases k with
    | mutex m' =>
      have hm : m' ≠ m := fun hm => hk (by rw [hm])
      exact ⟨by simp [step, bank, wake, hm], rfl⟩
    | semaphore m' => exact ⟨by simp [step, bank, wake], rfl⟩
  | releaseSemaphore m =>
    have hk : k ≠ .semaphore m := fun hk => hr (by rw [hk]; rfl)
    rw [step]
    split_ifs
    · cases k with
      | mutex m' => exact ⟨rfl, rfl⟩
      | semaphore m' =>
        have hm : m' ≠ m := fun hm => hk (by rw [hm])
        exact ⟨by simp [bank, hm], rfl⟩
    · exact ⟨bank_congr (waiters_wake_of_ne hk) rfl rfl, by cases k <;> rfl⟩
  | _ => exact ⟨rfl, rfl⟩

theorem bank_acquire_of_ne {k' : Lock} (hk : k ≠ k') :
    (l.step t k'.acquire).bank k = l.bank k ∧ (l.step t k'.acquire).capacity k = l.capacity k := by
  apply bank_other
  · cases k <;> cases k' <;> simp_all [Lock.acquire, eq_comm]
  · cases k <;> cases k' <;> simp [Lock.acquire, Lock.release]
  · cases k <;> cases k' <;> simp [Lock.acquire, Lock.Created]

theorem bank_release_of_ne {k' : Lock} (hk : k ≠ k') :
    (l.step t k'.release).bank k = l.bank k ∧ (l.step t k'.release).capacity k = l.capacity k := by
  apply bank_other
  · cases k <;> cases k' <;> simp [Lock.acquire, Lock.release]
  · cases k <;> cases k' <;> simp_all [Lock.release, eq_comm]
  · cases k <;> cases k' <;> simp [Lock.release, Lock.Created]

end Locks

namespace Plan

variable {a : Plan} {t : ℕ} {e : Event} {k : Lock}

/-- The lock is allocated. -/
def Has (a : Plan) : Lock → Prop
  | .mutex m => m ∈ a.mutexes
  | .semaphore m => m ∈ a.semaphores

theorem Resting.objects_step (h : a.Resting) (hm : ∀ m, e ≠ .createMutex m)
    (hs : ∀ m maxCount, e ≠ .createSemaphore m maxCount) :
    (a.step e).mutexes = a.mutexes ∧ (a.step e).semaphores = a.semaphores := by
  have hsame : ∀ {b : Plan}, SameObjects a b →
      b.unlockScheduler.mutexes = a.mutexes ∧ b.unlockScheduler.semaphores = a.semaphores :=
    fun hb => ⟨hb.mutexes, hb.semaphores⟩
  cases e with
  | tick =>
    have hb := sameObjects_apicTimerHandler h.toUnlocked
    exact ⟨hb.mutexes, hb.semaphores⟩
  | createMutex m => exact absurd rfl (hm m)
  | createSemaphore m maxCount => exact absurd rfl (hs m maxCount)
  | threadSleep d =>
    rw [Plan.step, enterSleep_eq h.toUnlocked]
    exact hsame (sameObjects_blockOn a ..)
  | threadExit =>
    rw [Plan.step, enterExit_eq h.toUnlocked]
    exact hsame (sameObjects_blockOn a ..)
  | acquireMutex m =>
    rw [Plan.step, enterAcquireMutex_eq h.toUnlocked]
    split_ifs
    · exact ⟨rfl, rfl⟩
    · exact hsame (sameObjects_blockOn a ..)
  | acquireSemaphore m =>
    rw [Plan.step, enterAcquireSemaphore_eq h.toUnlocked]
    split_ifs
    · exact ⟨rfl, rfl⟩
    · exact hsame (sameObjects_blockOn a ..)
  | releaseMutex m =>
    rw [Plan.step]
    cases hq : a.queue (.mutex m) with
    | nil =>
      rw [enterReleaseMutex_nil h.toUnlocked hq]
      exact ⟨rfl, rfl⟩
    | cons t ts =>
      rw [enterReleaseMutex_cons h.toUnlocked hq]
      have hb := sameObjects_reschedule { a.lockScheduler.promote (.mutex m) t with
        ownerThread := update a.ownerThread m t }
      exact ⟨hb.mutexes, hb.semaphores⟩
  | releaseSemaphore m =>
    rw [Plan.step]
    cases hq : a.queue (.semaphore m) with
    | nil =>
      rw [enterReleaseSemaphore_nil h.toUnlocked hq]
      split_ifs <;> exact ⟨rfl, rfl⟩
    | cons t ts =>
      rw [enterReleaseSemaphore_cons h.toUnlocked hq]
      have hb := sameObjects_reschedule (a.lockScheduler.promote (.semaphore m) t)
      exact ⟨hb.mutexes, hb.semaphores⟩
  | _ => exact ⟨rfl, rfl⟩

/-- No call of the scheduler frees a lock. -/
theorem Resting.has_step (h : a.Resting) (hk : a.Has k) : (a.step e).Has k := by
  have hsame : ∀ {e : Event}, (∀ m, e ≠ .createMutex m) → (∀ m maxCount, e ≠ .createSemaphore m maxCount) →
      (a.step e).Has k := by
    intro e hm hs
    obtain ⟨hmutexes, hsemaphores⟩ := h.objects_step hm hs
    cases k with
    | mutex m => exact hmutexes.symm.subset hk
    | semaphore m => exact hsemaphores.symm.subset hk
  cases e with
  | createMutex m =>
    cases k with
    | mutex m' => exact Finset.mem_insert_of_mem hk
    | semaphore m' => exact hk
  | createSemaphore m maxCount =>
    cases k with
    | mutex m' => exact hk
    | semaphore m' => exact Finset.mem_insert_of_mem hk
  | _ => exact hsame (by simp) (by simp)

/-- A thread at work may take and give back locks that are allocated. -/
theorem allowed_acquire (hbusy : a.currentThread ≠ a.idleThread) (hk : a.Has k) : a.Allowed k.acquire :=
  ⟨fun _ => hbusy, by cases k <;> exact hk⟩

theorem allowed_release (hbusy : a.currentThread ≠ a.idleThread) (hk : a.Has k) : a.Allowed k.release :=
  ⟨fun _ => hbusy, by cases k <;> exact hk⟩

/-- A thread that is neither the idle thread nor on its way to the cleaner. -/
def Works (a : Plan) (t : ℕ) : Prop := t ∈ a.alive ∧ ¬ a.Dead t ∧ t ≠ a.idleThread

theorem Resting.works_step (h : a.Resting) (he : a.Allowed e) (ht : a.Works t)
    (hexit : e = .threadExit → t ≠ a.currentThread) : (a.step e).Works t := by
  obtain ⟨hal, hdead, hidle⟩ := ht
  have hgrows := h.grows_step (e := e)
  refine ⟨hgrows.alive t hal fun hd => hdead (.inr hd), fun hd => ?_, ?_⟩
  · rcases h.dead_step he hd with hd | ⟨rfl, hc⟩
    · exact hdead hd
    · exact hexit rfl hc
  · rw [hgrows.idleThread]
    exact hidle

/-- Only dead threads leave. -/
theorem Resting.alive_cases (h : a.Resting) (he : a.Allowed e)
    (hcreate : ∀ t, e ≠ .createKernelThread t) :
    (a.step e).alive = a.alive ∨ ∃ t, a.Dead t ∧ (a.step e).alive = a.alive.erase t := by
  by_cases hreap : e = .reapThread
  · subst hreap
    obtain ⟨x, ts, hq⟩ := List.exists_cons_of_ne_nil he.fits
    refine .inr ⟨x, .inr (by simp [hq]), ?_⟩
    simp [Plan.step, Plan.reapThread, hq]
  · exact .inl (h.alive_step hcreate hreap)

/-- The blocks in use are those of before and `new`. -/
structure Within (new : ℕ) (a b : Plan) : Prop where
  alive : b.alive ⊆ insert new a.alive
  mutexes : b.mutexes ⊆ insert new a.mutexes
  semaphores : b.semaphores ⊆ insert new a.semaphores

/-- The block an operation puts something new into. -/
def makes : Event → Option ℕ
  | .createKernelThread thread => some thread
  | .createMutex mutex => some mutex
  | .createSemaphore semaphore _ => some semaphore
  | _ => none

theorem ne_create (h : makes e = none) (t : ℕ) : e ≠ .createKernelThread t := by
  rintro rfl
  cases h

theorem makes_acquire (k : Lock) : makes k.acquire = none := by cases k <;> rfl

theorem makes_release (k : Lock) : makes k.release = none := by cases k <;> rfl

theorem Resting.within_step {new : ℕ} (h : a.Resting) (he : a.Allowed e)
    (hnew : makes e = none ∨ makes e = some new) : Within new a (a.step e) := by
  have hkeep : (∀ t, e ≠ .createKernelThread t) → (a.step e).alive ⊆ insert new a.alive := by
    intro hcreate
    rcases h.alive_cases he hcreate with hal | ⟨t, -, hal⟩
    · exact hal.subset.trans (Finset.subset_insert _ _)
    · exact (hal.subset.trans (Finset.erase_subset _ _)).trans (Finset.subset_insert _ _)
  have hsame : (∀ m, e ≠ .createMutex m) → (∀ m maxCount, e ≠ .createSemaphore m maxCount) →
      (a.step e).mutexes ⊆ insert new a.mutexes ∧ (a.step e).semaphores ⊆ insert new a.semaphores := by
    intro hm hs
    obtain ⟨hmutexes, hsemaphores⟩ := h.objects_step hm hs
    exact ⟨hmutexes.subset.trans (Finset.subset_insert _ _),
      hsemaphores.subset.trans (Finset.subset_insert _ _)⟩
  cases e with
  | createKernelThread t =>
    obtain rfl : t = new := Option.some.inj (hnew.resolve_left nofun)
    obtain ⟨hm, hs⟩ := hsame nofun nofun
    exact ⟨subset_rfl, hm, hs⟩
  | createMutex m =>
    obtain rfl : m = new := Option.some.inj (hnew.resolve_left nofun)
    exact ⟨hkeep nofun, subset_rfl, Finset.subset_insert _ _⟩
  | createSemaphore m maxCount =>
    obtain rfl : m = new := Option.some.inj (hnew.resolve_left nofun)
    exact ⟨hkeep nofun, Finset.subset_insert _ _, subset_rfl⟩
  | _ =>
    obtain ⟨hm, hs⟩ := hsame nofun nofun
    exact ⟨hkeep nofun, hm, hs⟩

/-- The lock is freed. -/
def kfree (a : Plan) : Lock → Plan
  | .mutex m => { a with mutexes := a.mutexes.erase m }
  | .semaphore m => { a with semaphores := a.semaphores.erase m }

theorem locks_kfree (a : Plan) (k : Lock) : (a.kfree k).locks = a.locks := by cases k <;> rfl

theorem within_kfree (a : Plan) (k : Lock) (new : ℕ) : Within new a (a.kfree k) := by
  cases k with
  | mutex m =>
    exact ⟨Finset.subset_insert _ _, (Finset.erase_subset _ _).trans (Finset.subset_insert _ _),
      Finset.subset_insert _ _⟩
  | semaphore m =>
    exact ⟨Finset.subset_insert _ _, Finset.subset_insert _ _,
      (Finset.erase_subset _ _).trans (Finset.subset_insert _ _)⟩

theorem has_kfree {k' : Lock} (hk : a.Has k) (hne : k ≠ k') : (a.kfree k').Has k := by
  cases k <;> cases k'
  · exact Finset.mem_erase.mpr ⟨fun hm => hne (by rw [hm]), hk⟩
  · exact hk
  · exact hk
  · exact Finset.mem_erase.mpr ⟨fun hm => hne (by rw [hm]), hk⟩

end Plan

/-- `kfree` of the block a mutex or semaphore is in. -/
def SchedState.kfree (s : SchedState) : Lock → Outcome SchedState
  | .mutex m =>
    if m ∈ s.mutexes then .ok { s with mutexes := s.mutexes.erase m } else .error (.fault m)
  | .semaphore m =>
    if m ∈ s.semaphores then .ok { s with semaphores := s.semaphores.erase m } else .error (.fault m)

/-- A lock nobody waits for may be freed. -/
theorem Regular.kfree {s : SchedState} {a : Plan} {k : Lock} (h : Regular s a) (hk : a.Has k)
    (hq : a.locks.waiters k = []) : ∃ s', s.kfree k = .ok s' ∧ Regular s' (a.kfree k) := by
  have hcommon := h.rep.common
  have hplaced := h.resting.toPlaced
  cases k with
  | mutex m =>
    have hq' : a.queue (.mutex m) = [] := hq
    have hmem : m ∈ s.mutexes := (congrArg Common.mutexes hcommon).symm ▸ hk
    refine ⟨_, if_pos hmem, ⟨⟨?_, ?_⟩, ⟨h.paced.counter, h.paced.time⟩, h.dated⟩⟩
    · refine { h.rep with common := ?_ }
      rw [hcommon]
      rfl
    · refine { h.resting with mutexes := fun m' hm' => Finset.mem_erase.mpr ⟨?_, hplaced.mutexes m' hm'⟩ }
      rintro rfl
      exact hm' hq'
  | semaphore m =>
    have hq' : a.queue (.semaphore m) = [] := hq
    have hmem : m ∈ s.semaphores := (congrArg Common.semaphores hcommon).symm ▸ hk
    refine ⟨_, if_pos hmem, ⟨⟨?_, ?_⟩, ⟨h.paced.counter, h.paced.time⟩, h.dated⟩⟩
    · refine { h.rep with common := ?_ }
      rw [hcommon]
      rfl
    · refine { h.resting with
        semaphores := fun m' hm' => Finset.mem_erase.mpr ⟨?_, hplaced.semaphores m' hm'⟩ }
      rintro rfl
      exact hm' hq'

end KallarOS.Sched
