import KallarOS.SchedLocks

namespace KallarOS.Sched
open Function Relation

/-- What an observer of the acquire and release calls keeps: the acquire each thread
is still inside of and when it made it, which of these mutex acquires have been
granted, the threads between the return of `acquire_mutex` and `release_mutex`, and
how many semaphore acquires and releases have taken effect. -/
structure Calls where
  time : ℕ
  call : ℕ → Option Lock
  since : ℕ → ℕ
  granted : Finset ℕ
  holders : ℕ → Finset ℕ
  completed : ℕ → ℕ
  released : ℕ → ℕ

namespace Calls

variable (g : Calls)

def start : Calls := ⟨0, fun _ => none, fun _ => 0, ∅, fun _ => ∅, fun _ => 0, fun _ => 0⟩

def begin (t : ℕ) (k : Lock) : Calls :=
  { g with
    call := update g.call t (some k)
    since := update g.since t g.time
    granted := g.granted.erase t }

/-- The call is made. A new thread starts outside every call. -/
def enter (before : Common) : Event → Calls
  | .acquireMutex m => g.begin before.currentThread (.mutex m)
  | .acquireSemaphore m => g.begin before.currentThread (.semaphore m)
  | .releaseMutex m =>
    { g with holders := update g.holders m ((g.holders m).erase before.currentThread) }
  | .createKernelThread t =>
    { g with call := update g.call t none, holders := fun m => (g.holders m).erase t }
  | .createSemaphore m _ =>
    { g with completed := update g.completed m 0, released := update g.released m 0 }
  | _ => g

/-- A thread that became the owner has been granted the mutex. -/
def grant (before after : Common) : Event → Calls
  | .acquireMutex m | .releaseMutex m =>
    if after.ownerThread m = before.ownerThread m then g
    else { g with granted := insert (after.ownerThread m) g.granted }
  | _ => g

/-- The threads blocked inside an acquire of `k`. -/
def waiting (c : Common) (k : Lock) : Finset ℕ :=
  c.alive.filter fun t => g.call t = some k ∧ (c.tcb t).state = .blocked

/-- An acquire is complete when its caller is not, or no longer, blocked in it. A
release has no effect when nobody waits and no token is out. -/
def tally (before after : Common) (e : Event) : Calls :=
  { g with
    completed := fun m => g.completed m +
      ((g.waiting before (.semaphore m)).filter fun t => (after.tcb t).state ≠ .blocked).card +
      if e = .acquireSemaphore m ∧ (after.tcb before.currentThread).state ≠ .blocked then 1 else 0
    released := fun m => g.released m +
      if e = .releaseSemaphore m ∧
        ((g.waiting before (.semaphore m)).Nonempty ∨ before.currentCount m ≠ 0) then 1 else 0 }

/-- The thread that has the CPU now returns from the acquire it was in. -/
def leave (after : Common) : Calls :=
  match g.call after.currentThread with
  | some (.mutex m) =>
    { g with
      call := update g.call after.currentThread none
      holders := update g.holders m (insert after.currentThread (g.holders m)) }
  | some (.semaphore _) => { g with call := update g.call after.currentThread none }
  | none => g

def observe (before after : Common) (e : Event) : Calls :=
  { (((g.enter before e).grant before after e).tally before after e).leave after with
    time := g.time + 1 }

end Calls

/-- The lock an event tries to acquire. -/
def Event.acquires : Event → Option Lock
  | .acquireMutex m => some (.mutex m)
  | .acquireSemaphore m => some (.semaphore m)
  | _ => none

theorem Event.acquires_eq {e : Event} {k : Lock} (h : e.acquires = some k) :
    (∃ m, e = .acquireMutex m ∧ k = .mutex m) ∨ ∃ m, e = .acquireSemaphore m ∧ k = .semaphore m := by
  cases e <;> simp [acquires] at h
  · exact .inl ⟨_, rfl, h.symm⟩
  · exact .inr ⟨_, rfl, h.symm⟩

/-- A wait queue keeps its threads, loses its first or gets the caller. -/
theorem Locks.waiters_step (l : Locks) (t : ℕ) (e : Event) (k : Lock) :
    (l.step t e).waiters k = l.waiters k ∨ (l.step t e).waiters k = (l.waiters k).tail ∨
      (e.acquires = some k ∧ (l.step t e).waiters k = l.waiters k ++ [t]) := by
  have hwake : ∀ k', (l.wake k').waiters k = l.waiters k ∨ (l.wake k').waiters k = (l.waiters k).tail := by
    intro k'
    by_cases hk : k = k'
    · rw [← hk]
      exact .inr waiters_wake_self
    · exact .inl (waiters_wake_of_ne hk)
  have hwait : ∀ k', (l.wait k' t).waiters k = l.waiters k ∨
      (k' = k ∧ (l.wait k' t).waiters k = l.waiters k ++ [t]) := by
    intro k'
    by_cases hk : k = k'
    · rw [← hk]
      exact .inr ⟨rfl, waiters_wait_self⟩
    · exact .inl (waiters_wait_of_ne hk)
  cases e with
  | acquireMutex m =>
    rw [step]
    split_ifs
    · exact .inl rfl
    · rcases hwait (.mutex m) with h | ⟨rfl, h⟩
      · exact .inl h
      · exact .inr (.inr ⟨rfl, h⟩)
  | acquireSemaphore m =>
    rw [step]
    split_ifs
    · exact .inl rfl
    · rcases hwait (.semaphore m) with h | ⟨rfl, h⟩
      · exact .inl h
      · exact .inr (.inr ⟨rfl, h⟩)
  | releaseMutex m =>
    rcases hwake (.mutex m) with h | h
    · exact .inl h
    · exact .inr (.inl h)
  | releaseSemaphore m =>
    rw [step]
    split_ifs
    · exact .inl rfl
    · rcases hwake (.semaphore m) with h | h
      · exact .inl h
      · exact .inr (.inl h)
  | _ => exact .inl rfl

theorem Locks.mem_waiters_step {l : Locks} {t x : ℕ} {e : Event} {k : Lock}
    (h : x ∈ (l.step t e).waiters k) : x ∈ l.waiters k ∨ (x = t ∧ e.acquires = some k) := by
  rcases l.waiters_step t e k with hk | hk | ⟨he, hk⟩
  · exact .inl (hk ▸ h)
  · exact .inl (List.mem_of_mem_tail (hk ▸ h))
  · rw [hk, List.mem_append, List.mem_singleton] at h
    exact h.imp_right fun hx => ⟨hx, he⟩

namespace Calls

variable {g : Calls} {before after : Common} {e : Event} {k : Lock} {t : ℕ}

section Observations

theorem call_leave : (g.leave after).call t = if t = after.currentThread then none else g.call t := by
  rw [leave]
  split
  · exact update_apply ..
  · exact update_apply ..
  · next hc =>
    split_ifs with ht
    · rw [ht, hc]
    · rfl

theorem since_leave : (g.leave after).since = g.since := by
  rw [leave]
  split <;> rfl

theorem call_grant : (g.grant before after e).call = g.call := by
  cases e <;> simp only [grant]
  all_goals split_ifs <;> rfl

theorem since_grant : (g.grant before after e).since = g.since := by
  cases e <;> simp only [grant]
  all_goals split_ifs <;> rfl

/-- Only the thread that has the CPU returns. -/
theorem call_observe : (g.observe before after e).call t =
    if t = after.currentThread then none else (g.enter before e).call t := by
  change (leave _ after).call t = _
  rw [call_leave]
  change (if _ then _ else (grant _ before after e).call t) = _
  rw [call_grant]

theorem since_observe : (g.observe before after e).since = (g.enter before e).since := by
  change (leave _ after).since = _
  rw [since_leave]
  change (grant _ before after e).since = _
  rw [since_grant]

theorem call_begin_self : (g.begin t k).call t = some k := update_self ..

theorem since_begin_self : (g.begin t k).since t = g.time := update_self ..

theorem enter_acquires (h : e.acquires = some k) : g.enter before e = g.begin before.currentThread k := by
  rcases Event.acquires_eq h with ⟨m, rfl, rfl⟩ | ⟨m, rfl, rfl⟩ <;> rfl

/-- The others' calls go on. -/
theorem call_enter_of_ne (ht : t ≠ before.currentThread)
    (hnew : ∀ x, e = .createKernelThread x → t ≠ x) : (g.enter before e).call t = g.call t := by
  cases e with
  | createKernelThread x => exact update_of_ne (hnew x rfl) _ _
  | _ => simp [enter, begin, ht]

theorem since_enter_of_ne (ht : t ≠ before.currentThread) :
    (g.enter before e).since t = g.since t := by
  cases e <;> simp [enter, begin, ht]

theorem call_enter (h : (g.enter before e).call t = some k) :
    g.call t = some k ∨ (t = before.currentThread ∧ e.acquires = some k) := by
  cases e with
  | acquireMutex m =>
    simp only [enter, begin, update_apply] at h
    split_ifs at h with ht
    · exact .inr ⟨ht, h⟩
    · exact .inl h
  | acquireSemaphore m =>
    simp only [enter, begin, update_apply] at h
    split_ifs at h with ht
    · exact .inr ⟨ht, h⟩
    · exact .inl h
  | createKernelThread x =>
    simp only [enter, update_apply] at h
    split_ifs at h with ht
    exact .inl h
  | _ => exact .inl h

end Observations

end Calls

namespace Plan

variable {a : Plan} {t : ℕ} {e : Event}

/-- No operation drops a mutex or exchanges the idle thread, only detached threads are
freed, and semaphores come from `create_semaphore`. -/
structure Grows (a b : Plan) (e : Event) : Prop where
  alive : ∀ t ∈ a.alive, t ∉ a.queue .detached → t ∈ b.alive
  idleThread : b.idleThread = a.idleThread
  mutexes : a.mutexes ⊆ b.mutexes
  semaphores : ∀ m ∈ b.semaphores, m ∈ a.semaphores ∨ ∃ maxCount, e = .createSemaphore m maxCount

theorem SameObjects.grows {b : Plan} (h : SameObjects a b) : Grows a b e :=
  ⟨fun _ ht _ => h.alive ▸ ht, h.idleThread, h.mutexes ▸ subset_rfl,
    fun _ hm => .inl (h.semaphores ▸ hm)⟩

theorem Grows.trans_same {b c : Plan} (h : Grows a b e) (hs : SameObjects b c) : Grows a c e :=
  ⟨fun t ht hd => hs.alive ▸ h.alive t ht hd, hs.idleThread.trans h.idleThread,
    hs.mutexes ▸ h.mutexes, fun m hm => h.semaphores m (hs.semaphores ▸ hm)⟩

theorem Resting.grows_step (h : a.Resting) : Grows a (a.step e) e := by
  have hsame : ∀ {b : Plan}, SameObjects a b → Grows a b.unlockScheduler e :=
    fun hb => (hb.trans (sameObjects_unlockScheduler _)).grows
  cases e with
  | tick => exact (sameObjects_apicTimerHandler h.toUnlocked).grows
  | createMutex m => exact ⟨fun t ht _ => ht, rfl, Finset.subset_insert _ _, fun _ hm => .inl hm⟩
  | createSemaphore m maxCount =>
    refine ⟨fun t ht _ => ht, rfl, subset_rfl, fun x hx => ?_⟩
    rcases Finset.mem_insert.mp hx with rfl | hx
    · exact .inr ⟨maxCount, rfl⟩
    · exact .inl hx
  | threadSleep d =>
    rw [Plan.step, enterSleep_eq h.toUnlocked]
    exact hsame (sameObjects_blockOn a ..)
  | threadExit =>
    rw [Plan.step, enterExit_eq h.toUnlocked]
    exact hsame (sameObjects_blockOn a ..)
  | acquireMutex m =>
    rw [Plan.step, enterAcquireMutex_eq h.toUnlocked]
    split_ifs
    · exact ⟨fun t ht _ => ht, rfl, subset_rfl, fun _ hm => .inl hm⟩
    · exact hsame (sameObjects_blockOn a ..)
  | acquireSemaphore m =>
    rw [Plan.step, enterAcquireSemaphore_eq h.toUnlocked]
    split_ifs
    · exact ⟨fun t ht _ => ht, rfl, subset_rfl, fun _ hm => .inl hm⟩
    · exact hsame (sameObjects_blockOn a ..)
  | releaseMutex m =>
    rw [Plan.step]
    cases hq : a.queue (.mutex m) with
    | nil =>
      rw [enterReleaseMutex_nil h.toUnlocked hq]
      exact ⟨fun t ht _ => ht, rfl, subset_rfl, fun _ hm => .inl hm⟩
    | cons t ts =>
      rw [enterReleaseMutex_cons h.toUnlocked hq]
      -- the owner changes, and nothing that `Grows` reads
      let b : Plan := { a.lockScheduler.promote (.mutex m) t with
        ownerThread := update a.ownerThread m t }
      have hb : Grows a b (.releaseMutex m) :=
        ⟨fun t ht _ => ht, rfl, subset_rfl, fun _ hm => .inl hm⟩
      exact hb.trans_same ((sameObjects_reschedule b).trans (sameObjects_unlockScheduler _))
  | releaseSemaphore m =>
    rw [Plan.step]
    cases hq : a.queue (.semaphore m) with
    | nil =>
      rw [enterReleaseSemaphore_nil h.toUnlocked hq]
      split_ifs <;> exact ⟨fun t ht _ => ht, rfl, subset_rfl, fun _ hm => .inl hm⟩
    | cons t ts =>
      rw [enterReleaseSemaphore_cons h.toUnlocked hq]
      have hb : SameObjects a (a.lockScheduler.promote (.semaphore m) t) :=
        ⟨rfl, rfl, rfl, rfl, rfl, rfl, rfl⟩
      exact hsame (hb.trans (sameObjects_reschedule _))
  | createKernelThread x =>
    exact ⟨fun t ht _ => Finset.mem_insert_of_mem ht, rfl, subset_rfl, fun _ hm => .inl hm⟩
  | detachTerminated => exact ⟨fun t ht _ => ht, rfl, subset_rfl, fun _ hm => .inl hm⟩
  | reapThread =>
    refine ⟨fun t ht hd => Finset.mem_erase.mpr ⟨fun hth => ?_, ht⟩, rfl, subset_rfl, fun _ hm => .inl hm⟩
    cases hq : a.queue .detached with
    | nil => exact h.nonnull (by rwa [hth, hq] at ht)
    | cons x xs =>
      rw [hq, List.headD_cons] at hth
      exact hd (by rw [hq, hth]; simp)

/-- The blocked threads are the ones in the wait queues. -/
theorem Placed.blocked_iff (h : a.Placed) (ht : t ∈ a.alive) (hidle : t ≠ a.idleThread) :
    (a.tcb t).state = .blocked ↔ ∃ k, t ∈ a.locks.waiters k := by
  refine ⟨fun hs => ?_, fun ⟨k, hk⟩ => ?_⟩
  · have hcur : t ≠ a.currentThread := fun he => by
      have hrun := h.running
      rw [← he, hs] at hrun
      cases hrun
    obtain ⟨p, hp⟩ := h.waits t ht hidle hcur
    have hstate := h.state p t hp
    rw [hs] at hstate
    cases p with
    | mutex m => exact ⟨.mutex m, hp⟩
    | semaphore m => exact ⟨.semaphore m, hp⟩
    | _ => simp at hstate
  · rw [h.state k.place t hk]
    cases k <;> rfl

theorem Placed.waiter_ne_current (h : a.Placed) {k : Lock} (ht : t ∈ a.locks.waiters k) :
    t ≠ a.currentThread := fun he => h.free k.place (he ▸ ht)

theorem Placed.waiters_apart (h : a.Placed) {k k' : Lock} (ht : t ∈ a.locks.waiters k)
    (ht' : t ∈ a.locks.waiters k') : k = k' :=
  place_injective (h.apart k.place k'.place t ht ht')

end Plan

namespace Calls

variable {g : Calls} {a : Plan} {e : Event} {t : ℕ} {k : Lock}

/-- The observer and the wait queues agree. -/
structure Inv (g : Calls) (a : Plan) : Prop where
  idle : g.call a.idleThread = none
  null : g.call 0 = none
  current : g.call a.currentThread = none
  called : ∀ k, ∀ t ∈ a.locks.waiters k, g.call t = some k
  since_lt : ∀ t, g.call t ≠ none → g.since t < g.time
  ordered : ∀ k, (a.locks.waiters k).Pairwise fun t u => g.since t < g.since u

theorem Inv.waiting (h : g.Inv a) (ha : a.Placed) :
    t ∈ g.waiting a.toCommon k ↔ t ∈ a.locks.waiters k := by
  rw [Calls.waiting, Finset.mem_filter]
  refine ⟨fun ⟨hal, hc, hs⟩ => ?_, fun hk => ⟨ha.alive k.place t hk, h.called k t hk, ?_⟩⟩
  · have hidle : t ≠ a.idleThread := fun he => by
      rw [he, h.idle] at hc
      cases hc
    obtain ⟨k', hk'⟩ := (ha.blocked_iff hal hidle).mp hs
    have hcall := h.called k' t hk'
    rw [hc] at hcall
    cases hcall
    exact hk'
  · have hidle : t ≠ a.idleThread := fun he => ha.idle_free k.place (he ▸ hk)
    exact (ha.blocked_iff (ha.alive k.place t hk) hidle).mpr ⟨k, hk⟩

/-- The threads of a wait queue keep their call. -/
theorem Inv.enter_waiter (ha : a.Placed) (he : a.Allowed e) (hk : t ∈ a.locks.waiters k) :
    (g.enter a.toCommon e).call t = g.call t := by
  refine call_enter_of_ne (ha.waiter_ne_current hk) fun x hx htx => ?_
  have hfits := he.fits
  rw [hx] at hfits
  exact hfits.2.2 (htx ▸ ha.alive k.place t hk)

/-- A thread outside every call stays outside unless it makes this one. -/
theorem call_observe_none (hc : g.call t = none) (hcur : t = a.currentThread → e.acquires = none) :
    (g.observe a.toCommon (a.step e).toCommon e).call t = none := by
  rw [call_observe]
  split_ifs
  · rfl
  · by_contra hne
    obtain ⟨k, hk⟩ := Option.ne_none_iff_exists'.mp hne
    rcases call_enter hk with hk | ⟨htc, hk⟩
    · rw [hc] at hk
      cases hk
    · rw [hcur htc] at hk
      cases hk

theorem Inv.called_step (h : g.Inv a) (ha : a.Resting) (he : a.Allowed e)
    (ht : t ∈ (a.step e).locks.waiters k) : (g.enter a.toCommon e).call t = some k := by
  rw [ha.locks_step e] at ht
  rcases Locks.mem_waiters_step ht with ht | ⟨rfl, hk⟩
  · rw [Inv.enter_waiter ha.toPlaced he ht]
    exact h.called k t ht
  · rw [enter_acquires hk, call_begin_self]

/-- Every call that is under way was made at this step or before. -/
theorem Inv.since_enter_lt (h : g.Inv a) (hcall : (g.enter a.toCommon e).call t ≠ none) :
    (g.enter a.toCommon e).since t < g.time + 1 := by
  obtain ⟨k, hk⟩ := Option.ne_none_iff_exists'.mp hcall
  by_cases htc : t = a.currentThread
  · rcases call_enter hk with hk | ⟨-, hk⟩
    · rw [htc, h.current] at hk
      cases hk
    · rw [enter_acquires hk, htc, since_begin_self]
      exact Nat.lt_succ_self _
  · rw [since_enter_of_ne htc]
    rcases call_enter hk with hk | ⟨htc', -⟩
    · exact (h.since_lt t (by simp [hk])).trans (Nat.lt_succ_self _)
    · exact absurd htc' htc

/-- The queue of a lock stays in the order of the calls: it loses its head, or the caller
joins it at the end. -/
theorem Inv.ordered_step (h : g.Inv a) (ha : a.Resting) (k : Lock) :
    ((a.step e).locks.waiters k).Pairwise fun t u =>
      (g.enter a.toCommon e).since t < (g.enter a.toCommon e).since u := by
  rw [ha.locks_step e]
  have hold : (a.locks.waiters k).Pairwise fun t u =>
      (g.enter a.toCommon e).since t < (g.enter a.toCommon e).since u := by
    refine (h.ordered k).imp_of_mem fun {t u} ht hu htu => ?_
    rwa [since_enter_of_ne (ha.toPlaced.waiter_ne_current ht),
      since_enter_of_ne (ha.toPlaced.waiter_ne_current hu)]
  rcases a.locks.waiters_step a.currentThread e k with hk | hk | ⟨hacq, hk⟩
  · rw [hk]
    exact hold
  · rw [hk]
    exact hold.sublist (List.tail_sublist _)
  · rw [hk, List.pairwise_append]
    refine ⟨hold, List.pairwise_singleton _ _, fun t ht u hu => ?_⟩
    rw [List.mem_singleton.mp hu, since_enter_of_ne (ha.toPlaced.waiter_ne_current ht),
      enter_acquires hacq, since_begin_self]
    exact h.since_lt t (by simp [h.called k t ht])

theorem Inv.step (h : g.Inv a) (ha : a.Resting) (he : a.Allowed e) :
    (g.observe a.toCommon (a.step e).toCommon e).Inv (a.step e) := by
  have hb := ha.step he
  have hidle := (ha.grows_step (e := e)).idleThread
  have hbusy : e.acquires ≠ none → a.currentThread ≠ a.idleThread := fun hne => he.busy fun ht => by
    rw [ht] at hne
    exact hne rfl
  refine ⟨?_, ?_, ?_, fun k t ht => ?_, fun t ht => ?_, fun k => ?_⟩
  · rw [hidle]
    refine call_observe_none h.idle fun hc => ?_
    by_contra hne
    exact hbusy hne hc.symm
  · exact call_observe_none h.null fun hc => absurd ha.current (hc ▸ ha.nonnull)
  · rw [call_observe, if_pos rfl]
  · rw [call_observe, if_neg (hb.toPlaced.waiter_ne_current ht)]
    exact h.called_step ha he ht
  · rw [call_observe] at ht
    rw [since_observe]
    split_ifs at ht
    · exact absurd rfl ht
    · exact h.since_enter_lt ht
  · rw [since_observe]
    exact h.ordered_step ha k

end Calls

end KallarOS.Sched
