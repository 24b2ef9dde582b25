import KallarOS.SchedCalls

namespace KallarOS.Sched
open Function Relation Chains

namespace Calls

variable {g : Calls} {a : Plan} {e : Event} {t m : ℕ}

/-- What the observer knows about mutexes. A thread inside an acquire waits or has
been made the owner; a thread between acquire and release is the owner. -/
structure Safe (g : Calls) (a : Plan) : Prop where
  queued : ∀ m, a.ownerThread m = 0 → a.queue (.mutex m) = []
  granted : ∀ t m, g.call t = some (.mutex m) → (t ∈ g.granted ↔ t ∉ a.queue (.mutex m))
  pending : ∀ t m, g.call t = some (.mutex m) → t ∉ a.queue (.mutex m) → a.ownerThread m = t
  holders : ∀ m, ∀ t ∈ g.holders m, a.ownerThread m = t
  nonnull : ∀ m, 0 ∉ g.holders m
  held : ∀ m, (g.holders m).Nonempty → m ∈ a.mutexes
  asked : ∀ t m, g.call t = some (.mutex m) → m ∈ a.mutexes

section Returning

/-- A thread returns from `acquire_mutex` as the owner. -/
theorem Safe.leave (h : g.Safe a) (hfree : ∀ p, a.currentThread ∉ a.queue p)
    (h0 : a.currentThread ≠ 0) : (g.leave a.toCommon).Safe a := by
  have hcall : ∀ t k, (g.leave a.toCommon).call t = some k → g.call t = some k := by
    intro t k ht
    rw [call_leave] at ht
    split_ifs at ht
    exact ht
  have hgranted : (g.leave a.toCommon).granted = g.granted := by
    rw [Calls.leave]
    split <;> rfl
  have hholders : ∀ m, ∀ t ∈ (g.leave a.toCommon).holders m,
      t ∈ g.holders m ∨ (t = a.currentThread ∧ g.call t = some (.mutex m)) := by
    intro m t ht
    rw [Calls.leave] at ht
    split at ht
    · next m' hm' =>
      simp only [update_apply] at ht
      split_ifs at ht with hm
      · subst hm
        rcases Finset.mem_insert.mp ht with rfl | ht
        · exact .inr ⟨rfl, hm'⟩
        · exact .inl ht
      · exact .inl ht
    · exact .inl ht
    · exact .inl ht
  refine ⟨h.queued, fun t m ht => ?_, fun t m ht => h.pending t m (hcall t _ ht), fun m t ht => ?_,
    fun m ht => ?_, fun m hne => ?_, fun t m ht => h.asked t m (hcall t _ ht)⟩
  · rw [hgranted]
    exact h.granted t m (hcall t _ ht)
  · rcases hholders m t ht with ht | ⟨rfl, ht⟩
    · exact h.holders m t ht
    · exact h.pending _ m ht (hfree _)
  · rcases hholders m 0 ht with ht | ⟨hc, -⟩
    · exact h.nonnull m ht
    · exact h0 hc.symm
  · obtain ⟨t, ht⟩ := hne
    rcases hholders m t ht with ht | ⟨-, ht⟩
    · exact h.held m ⟨t, ht⟩
    · exact h.asked t m ht

end Returning

section Moving

variable {g' : Calls} {b : Plan}

/-- Steps that leave the mutexes alone. -/
theorem Safe.quiet (h : g.Safe a) (hq : ∀ m, b.queue (.mutex m) = a.queue (.mutex m))
    (ho : b.ownerThread = a.ownerThread) (hm : a.mutexes ⊆ b.mutexes)
    (hcall : ∀ t m, g'.call t = some (.mutex m) →
      g.call t = some (.mutex m) ∧ (t ∈ g'.granted ↔ t ∈ g.granted))
    (hholders : ∀ m, g'.holders m ⊆ g.holders m) : g'.Safe b where
  queued m h0 := by
    rw [ho] at h0
    rw [hq]
    exact h.queued m h0
  granted t m ht := by
    rw [(hcall t m ht).2, hq]
    exact h.granted t m (hcall t m ht).1
  pending t m ht hnot := by
    rw [hq] at hnot
    rw [ho]
    exact h.pending t m (hcall t m ht).1 hnot
  holders m t ht := by
    rw [ho]
    exact h.holders m t (hholders m ht)
  nonnull m h0 := h.nonnull m (hholders m h0)
  held m hne := hm (h.held m (hne.mono (hholders m)))
  asked t m ht := hm (h.asked t m (hcall t m ht).1)

theorem call_update_cases {m' : ℕ} (hcall : g'.call = update g.call a.currentThread (some (.mutex m)))
    (ht : g'.call t = some (.mutex m')) : (t = a.currentThread ∧ m' = m) ∨
      (t ≠ a.currentThread ∧ g.call t = some (.mutex m')) := by
  rw [hcall, update_apply] at ht
  split_ifs at ht with htc
  · cases ht
    exact .inl ⟨htc, rfl⟩
  · exact .inr ⟨htc, ht⟩

/-- The mutex is free and the caller becomes its owner. -/
theorem Safe.take (h : g.Safe a) (hi : g.Inv a) (ha : a.Resting) (h0 : a.ownerThread m = 0)
    (hm : m ∈ a.mutexes) (hq : ∀ m, b.queue (.mutex m) = a.queue (.mutex m))
    (ho : b.ownerThread = update a.ownerThread m a.currentThread) (hms : a.mutexes ⊆ b.mutexes)
    (hcall : g'.call = update g.call a.currentThread (some (.mutex m)))
    (hgranted : g'.granted = insert a.currentThread (g.granted.erase a.currentThread))
    (hholders : g'.holders = g.holders) : g'.Safe b := by
  have hcur : a.currentThread ≠ 0 := fun hc => ha.nonnull (hc ▸ ha.current)
  refine ⟨fun m' hz => ?_, fun t m' ht => ?_, fun t m' ht hnot => ?_, fun m' t ht => ?_, ?_,
    fun m' hne => ?_, fun t m' ht => ?_⟩
  · rw [ho, update_apply] at hz
    split_ifs at hz
    · exact absurd hz hcur
    · rw [hq]
      exact h.queued m' hz
  · rw [hgranted, hq]
    rcases call_update_cases hcall ht with ⟨rfl, rfl⟩ | ⟨htc, ht⟩
    · simp [ha.toPlaced.free]
    · rw [← h.granted t m' ht]
      simp [htc]
  · rw [hq] at hnot
    rw [ho, update_apply]
    rcases call_update_cases hcall ht with ⟨rfl, rfl⟩ | ⟨htc, ht⟩
    · rw [if_pos rfl]
    · have hpend := h.pending t m' ht hnot
      split_ifs with hmm
      -- the mutex was free, so nobody else had been granted it
      · rw [hmm, h0] at hpend
        rw [← hpend, hi.null] at ht
        cases ht
      · exact hpend
  · rw [hholders] at ht
    have hown := h.holders m' t ht
    rw [ho, update_apply]
    split_ifs with hmm
    · rw [hmm, h0] at hown
      exact absurd (hown ▸ ht) (h.nonnull m')
    · exact hown
  · rw [hholders]
    exact h.nonnull
  · rw [hholders] at hne
    exact hms (h.held m' hne)
  · rcases call_update_cases hcall ht with ⟨-, rfl⟩ | ⟨-, ht⟩
    · exact hms hm
    · exact hms (h.asked t m' ht)

/-- The mutex has an owner and the caller goes to the end of its queue. -/
theorem Safe.block (h : g.Safe a) (hown : a.ownerThread m ≠ 0) (hm : m ∈ a.mutexes)
    (hqm : b.queue (.mutex m) = a.queue (.mutex m) ++ [a.currentThread])
    (hq : ∀ m', m' ≠ m → b.queue (.mutex m') = a.queue (.mutex m'))
    (ho : b.ownerThread = a.ownerThread) (hms : a.mutexes ⊆ b.mutexes)
    (hcall : g'.call = update g.call a.currentThread (some (.mutex m)))
    (hgranted : g'.granted = g.granted.erase a.currentThread)
    (hholders : g'.holders = g.holders) : g'.Safe b := by
  have hmem : ∀ t m', t ≠ a.currentThread →
      (t ∈ b.queue (.mutex m') ↔ t ∈ a.queue (.mutex m')) := by
    intro t m' ht
    by_cases hmm : m' = m
    · rw [hmm, hqm, List.mem_append, List.mem_singleton]
      simp [ht]
    · rw [hq m' hmm]
  refine ⟨fun m' hz => ?_, fun t m' ht => ?_, fun t m' ht hnot => ?_, fun m' t ht => ?_, ?_,
    fun m' hne => ?_, fun t m' ht => ?_⟩
  · rw [ho] at hz
    by_cases hmm : m' = m
    · exact absurd (hmm ▸ hz) hown
    · rw [hq m' hmm]
      exact h.queued m' hz
  · rcases call_update_cases hcall ht with ⟨rfl, rfl⟩ | ⟨htc, ht⟩
    · simp [hgranted, hqm]
    · rw [hmem t m' htc, ← h.granted t m' ht, hgranted]
      simp [htc]
  · rw [ho]
    rcases call_update_cases hcall ht with ⟨rfl, rfl⟩ | ⟨htc, ht⟩
    · simp [hqm] at hnot
    · exact h.pending t m' ht (mt (hmem t m' htc).mpr hnot)
  · rw [ho]
    exact h.holders m' t (hholders ▸ ht)
  · rw [hholders]
    exact h.nonnull
  · rw [hholders] at hne
    exact hms (h.held m' hne)
  · rcases call_update_cases hcall ht with ⟨-, rfl⟩ | ⟨-, ht⟩
    · exact hms hm
    · exact hms (h.asked t m' ht)

/-- Whoever was granted a held mutex is the caller, and the caller is in no acquire. -/
theorem Safe.callers_wait (h : g.Safe a) (hi : g.Inv a) (hheld : a.currentThread ∈ g.holders m)
    {t : ℕ} (ht : g.call t = some (.mutex m)) : t ∈ a.queue (.mutex m) := by
  by_contra hnot
  have hpend := h.pending t m ht hnot
  rw [h.holders m _ hheld] at hpend
  rw [← hpend, hi.current] at ht
  cases ht

/-- The first waiter of a mutex waits for no other one. -/
theorem Inv.called_head (hi : g.Inv a) {t m' : ℕ} (ht : g.call t = some (.mutex m'))
    (hth : t = (a.queue (.mutex m)).headD 0) : m' = m ∧ ∃ ts, a.queue (.mutex m) = t :: ts := by
  cases hqa : a.queue (.mutex m) with
  | nil =>
    rw [hqa, List.headD_nil] at hth
    rw [hth, hi.null] at ht
    cases ht
  | cons x xs =>
    rw [hqa, List.headD_cons] at hth
    have hx := hi.called (.mutex m) x (by simp [Plan.locks, Lock.place, hqa])
    rw [← hth, ht] at hx
    cases hx
    exact ⟨rfl, xs, by rw [hth]⟩

/-- The owner releases the mutex: the first waiter becomes the owner, or nobody. -/
theorem Safe.pass (h : g.Safe a) (hi : g.Inv a) (ha : a.Resting) (hheld : a.currentThread ∈ g.holders m)
    (hqm : b.queue (.mutex m) = (a.queue (.mutex m)).tail)
    (hq : ∀ m', m' ≠ m → b.queue (.mutex m') = a.queue (.mutex m'))
    (ho : b.ownerThread = update a.ownerThread m ((a.queue (.mutex m)).headD 0))
    (hms : a.mutexes ⊆ b.mutexes) (hcall : g'.call = g.call)
    (hgranted : g'.granted = insert ((a.queue (.mutex m)).headD 0) g.granted)
    (hholders : g'.holders = update g.holders m ((g.holders m).erase a.currentThread)) :
    g'.Safe b := by
  have hown := h.holders m _ hheld
  refine ⟨fun m' hz => ?_, fun t m' ht => ?_, fun t m' ht hnot => ?_, fun m' t ht => ?_, fun m' ht => ?_,
    fun m' hne => ?_, fun t m' ht => ?_⟩
  · rw [ho, update_apply] at hz
    split_ifs at hz with hmm
    · rw [hmm, hqm]
      cases hqa : a.queue (.mutex m) with
      | nil => rfl
      | cons x xs =>
        rw [hqa, List.headD_cons] at hz
        exact absurd (ha.alive (.mutex m) 0 (by rw [hqa, hz]; simp)) ha.nonnull
    · rw [hq m' hmm]
      exact h.queued m' hz
  · rw [hcall] at ht
    rw [hgranted, Finset.mem_insert]
    by_cases hth : t = (a.queue (.mutex m)).headD 0
    · obtain ⟨rfl, ts, hqa⟩ := hi.called_head ht hth
      have hnd := ha.nodup (.mutex m')
      rw [hqa, List.nodup_cons] at hnd
      simp only [hth, true_or, true_iff]
      rw [← hth, hqm, hqa]
      exact hnd.1
    · rw [or_iff_right hth, h.granted t m' ht]
      by_cases hmm : m' = m
      · subst hmm
        rw [hqm]
        cases hqa : a.queue (.mutex m') with
        | nil => simp
        | cons x xs =>
          rw [hqa, List.headD_cons] at hth
          simp [hth]
      · rw [hq m' hmm]
  · rw [hcall] at ht
    rw [ho, update_apply]
    split_ifs with hmm
    · subst hmm
      have hmem := h.callers_wait hi hheld ht
      rw [hqm] at hnot
      cases hqa : a.queue (.mutex m') with
      | nil => simp [hqa] at hmem
      | cons x xs =>
        rw [hqa] at hmem hnot
        rcases List.mem_cons.mp hmem with rfl | hmem
        · rfl
        · exact absurd hmem hnot
    · rw [hq m' hmm] at hnot
      exact h.pending t m' ht hnot
  · rw [hholders, update_apply] at ht
    split_ifs at ht with hmm
    -- the caller was the only holder
    · obtain ⟨hne, ht⟩ := Finset.mem_erase.mp ht
      exact absurd ((h.holders m t ht).symm.trans hown) hne
    · rw [ho, update_of_ne hmm]
      exact h.holders m' t ht
  · rw [hholders, update_apply] at ht
    split_ifs at ht
    · exact h.nonnull m (Finset.mem_of_mem_erase ht)
    · exact h.nonnull m' ht
  · rw [hholders, update_apply] at hne
    split_ifs at hne with hmm
    · rw [hmm]
      exact hms (h.held m (hne.mono (Finset.erase_subset _ _)))
    · exact hms (h.held m' hne)
  · rw [hcall] at ht
    exact hms (h.asked t m' ht)

/-- Counting does not touch the mutexes. -/
theorem Safe.tally {before after : Common} (h : g.Safe a) : (g.tally before after e).Safe a :=
  ⟨h.queued, h.granted, h.pending, h.holders, h.nonnull, h.held, h.asked⟩

theorem Safe.later (h : g.Safe a) (n : ℕ) : Safe { g with time := n } a :=
  ⟨h.queued, h.granted, h.pending, h.holders, h.nonnull, h.held, h.asked⟩

/-- Events that are not about mutexes. -/
theorem Safe.other (h : g.Safe a) (hi : g.Inv a) (ha : a.Resting)
    (hquiet : ∀ m, e ≠ .acquireMutex m ∧ e ≠ .releaseMutex m ∧ e ≠ .createMutex m) :
    ((g.enter a.toCommon e).grant a.toCommon (a.step e).toCommon e).Safe (a.step e) := by
  have hwait : ∀ m, (a.step e).queue (.mutex m) = _ := fun m => ha.waiters_step e (.mutex m)
  have howner := ha.ownerThread_step e
  have hsame : ∀ m, (a.locks.step a.currentThread e).waiters (.mutex m) = a.queue (.mutex m) ∧
      (a.locks.step a.currentThread e).owner = a.ownerThread := by
    intro m
    cases e with
    | acquireMutex m' => exact absurd rfl (hquiet m').1
    | releaseMutex m' => exact absurd rfl (hquiet m').2.1
    | createMutex m' => exact absurd rfl (hquiet m').2.2
    | acquireSemaphore m' =>
      rw [Locks.step]
      split_ifs
      · exact ⟨rfl, rfl⟩
      · exact ⟨Locks.waiters_wait_of_ne (by simp), rfl⟩
    | releaseSemaphore m' =>
      rw [Locks.step]
      split_ifs
      · exact ⟨rfl, rfl⟩
      · exact ⟨Locks.waiters_wake_of_ne (by simp), rfl⟩
    | _ => exact ⟨rfl, rfl⟩
  have hgrant : (g.enter a.toCommon e).grant a.toCommon (a.step e).toCommon e =
      g.enter a.toCommon e := by
    cases e with
    | acquireMutex m' => exact absurd rfl (hquiet m').1
    | releaseMutex m' => exact absurd rfl (hquiet m').2.1
    | _ => rfl
  rw [hgrant]
  refine h.quiet (fun m => ?_) ?_ ha.grows_step.mutexes (fun t m ht => ?_) fun m => ?_
  · exact (hwait m).trans (hsame m).1
  · exact howner.trans (hsame 0).2
  · rcases call_enter ht with hold | ⟨-, hacq⟩
    · refine ⟨hold, ?_⟩
      have htc : t ≠ a.currentThread := fun htc => by
        rw [htc, hi.current] at hold
        cases hold
      cases e with
      | acquireMutex m' => exact absurd rfl (hquiet m').1
      | acquireSemaphore m' => simp [enter, begin, htc]
      | _ => rfl
    · rcases Event.acquires_eq hacq with ⟨m', he, -⟩ | ⟨m', -, hk⟩
      · exact absurd he (hquiet m').1
      · cases hk
  · cases e with
    | releaseMutex m' => exact absurd rfl (hquiet m').2.1
    | createKernelThread x => exact Finset.erase_subset _ _
    | _ => exact subset_rfl

theorem Safe.create (h : g.Safe a) (ha : a.Resting) (hm : m ∉ a.mutexes) : g.Safe (a.createMutex m) where
  queued m' h0 := by
    by_cases hmm : m' = m
    · exact not_not.mp fun hne => hm (hmm ▸ ha.mutexes m' hne)
    · exact h.queued m' (by simpa [Plan.createMutex, hmm] using h0)
  granted := h.granted
  pending t m' ht hnot := by
    have hmm : m' ≠ m := fun he => hm (he ▸ h.asked t m' ht)
    simpa [Plan.createMutex, hmm] using h.pending t m' ht hnot
  holders m' t ht := by
    have hmm : m' ≠ m := fun he => hm (he ▸ h.held m' ⟨t, ht⟩)
    simpa [Plan.createMutex, hmm] using h.holders m' t ht
  nonnull := h.nonnull
  held m' hne := Finset.mem_insert_of_mem (h.held m' hne)
  asked t m' ht := Finset.mem_insert_of_mem (h.asked t m' ht)

/-- `acquire_mutex` takes a free mutex and waits for one that has an owner. -/
theorem Safe.acquire {m : ℕ} (h : g.Safe a) (hi : g.Inv a) (ha : a.Resting)
    (he : a.Allowed (.acquireMutex m)) :
    ((g.enter a.toCommon (.acquireMutex m)).grant a.toCommon
      (a.step (.acquireMutex m)).toCommon (.acquireMutex m)).Safe (a.step (.acquireMutex m)) := by
  have hwait : ∀ m', (a.step (.acquireMutex m)).queue (.mutex m') = _ :=
    fun m' => ha.waiters_step (.acquireMutex m) (.mutex m')
  have howner := ha.ownerThread_step (.acquireMutex m)
  have hms := (ha.grows_step (e := .acquireMutex m)).mutexes
  have hfree : a.currentThread ≠ 0 := fun h0 => ha.nonnull (h0 ▸ ha.current)
  by_cases h0 : a.ownerThread m = 0
  · have hstep : a.locks.step a.currentThread (.acquireMutex m) =
        { a.locks with owner := update a.ownerThread m a.currentThread } := if_pos h0
    rw [hstep] at hwait howner
    have hnew : (a.step (.acquireMutex m)).ownerThread m = a.currentThread := by
      rw [howner]
      exact update_self ..
    have hne : ¬ (a.step (.acquireMutex m)).ownerThread m = a.ownerThread m := by
      rw [hnew, h0]
      exact hfree
    rw [grant, if_neg hne, hnew]
    exact h.take hi ha h0 he.fits hwait howner hms rfl rfl rfl
  · have hstep : a.locks.step a.currentThread (.acquireMutex m) =
        a.locks.wait (.mutex m) a.currentThread := if_neg h0
    rw [hstep] at hwait howner
    have hsame : (a.step (.acquireMutex m)).ownerThread m = a.ownerThread m := congrFun howner m
    rw [grant, if_pos hsame]
    refine h.block h0 he.fits ?_ (fun m' hmm => ?_) howner hms rfl rfl rfl
    · rw [hwait]
      exact Locks.waiters_wait_self
    · rw [hwait]
      exact Locks.waiters_wait_of_ne (by simpa using hmm)

/-- `release_mutex` of a holder passes the mutex on to the first waiter. -/
theorem Safe.release {m : ℕ} (h : g.Safe a) (hi : g.Inv a) (ha : a.Resting)
    (hheld : a.currentThread ∈ g.holders m) :
    ((g.enter a.toCommon (.releaseMutex m)).grant a.toCommon
      (a.step (.releaseMutex m)).toCommon (.releaseMutex m)).Safe (a.step (.releaseMutex m)) := by
  have hwait : ∀ m', (a.step (.releaseMutex m)).queue (.mutex m') = _ :=
    fun m' => ha.waiters_step (.releaseMutex m) (.mutex m')
  have howner := ha.ownerThread_step (.releaseMutex m)
  have hms := (ha.grows_step (e := .releaseMutex m)).mutexes
  have hown := h.holders m _ hheld
  have hnew : (a.step (.releaseMutex m)).ownerThread m = (a.queue (.mutex m)).headD 0 := by
    rw [howner]
    exact update_self ..
  have hne : ¬ (a.step (.releaseMutex m)).ownerThread m = a.ownerThread m := by
    rw [hnew, hown]
    cases hq : a.queue (.mutex m) with
    | nil =>
      rw [List.headD_nil]
      exact fun hc => ha.nonnull (hc ▸ ha.current)
    | cons x xs =>
      rw [List.headD_cons]
      exact fun hc => ha.toPlaced.free (.mutex m) (by rw [hq, hc]; simp)
  rw [grant, if_neg hne, hnew]
  refine h.pass hi ha hheld ?_ (fun m' hmm => ?_) howner hms rfl rfl rfl
  · rw [hwait]
    exact Locks.waiters_wake_self
  · rw [hwait]
    exact Locks.waiters_wake_of_ne (by simpa using hmm)

/-- One operation, with releases by holders only. -/
theorem Safe.step (h : g.Safe a) (hi : g.Inv a) (ha : a.Resting) (he : a.Allowed e)
    (hrel : ∀ m, e = .releaseMutex m → a.currentThread ∈ g.holders m) :
    (g.observe a.toCommon (a.step e).toCommon e).Safe (a.step e) := by
  have hb := ha.step he
  have hcur : (a.step e).currentThread ≠ 0 := fun h0 => hb.nonnull (h0 ▸ hb.current)
  suffices hs : ((g.enter a.toCommon e).grant a.toCommon (a.step e).toCommon e).Safe (a.step e) from
    (hs.tally.leave hb.toPlaced.free hcur).later _
  cases e with
  | createMutex m => exact h.create ha he.fits
  | acquireMutex m => exact h.acquire hi ha he
  | releaseMutex m => exact h.release hi ha (hrel m rfl)
  | _ => exact h.other hi ha (by simp)

end Moving

end Calls

section Results

/-- The machine and what was seen of its calls. -/
structure Observed where
  state : SchedState
  calls : Calls

/-- One operation of the current thread, and the observer takes note of it. -/
def Observed.Next (k : Observed) (e : Event) (k' : Observed) : Prop :=
  e.Allowed k.state ∧ exec k.state e = .ok k'.state ∧
    k'.calls = k.calls.observe k.state.toCommon k'.state.toCommon e

/-- As `Next`, where a mutex is released only by a thread that holds it. -/
def MutexStep (k k' : Observed) : Prop :=
  ∃ e, k.Next e k' ∧ ∀ m, e = .releaseMutex m → k.state.currentThread ∈ k.calls.holders m

variable {k k' : Observed} {a : Plan} {e : Event}

theorem Observed.Next.inv (h : k.Next e k') (hs : Steady k.state a) (hi : k.calls.Inv a) :
    Steady k'.state (a.step e) ∧ k'.calls.Inv (a.step e) ∧
      k'.calls = k.calls.observe a.toCommon (a.step e).toCommon e := by
  obtain ⟨he, hok, hcalls⟩ := h
  have hs' := hs.step he hok
  rw [hs.rep.common, hs'.rep.common] at hcalls
  refine ⟨hs', ?_, hcalls⟩
  rw [hcalls]
  exact hi.step hs.resting (hs.rep.allowed.mp he)

theorem start_inv {s : SchedState} {root idle cleaner : ℕ} :
    Calls.start.Inv (startPlan s root idle cleaner) where
  idle := rfl
  null := rfl
  current := rfl
  called k t ht := by
    cases k <;> simp [Plan.locks, startPlan, Plan.createKernelThread, Plan.enqueueThread, Plan.push,
      Plan.modify, initialPlan, Lock.place] at ht
  since_lt t ht := absurd rfl ht
  ordered k := by
    cases k <;> simp [Plan.locks, startPlan, Plan.createKernelThread, Plan.enqueueThread, Plan.push,
      Plan.modify, initialPlan, Lock.place]

theorem start_safe {s : SchedState} {root idle cleaner : ℕ} :
    Calls.start.Safe (startPlan s root idle cleaner) where
  queued m _ := by
    simp [startPlan, Plan.createKernelThread, Plan.enqueueThread, Plan.push, Plan.modify, initialPlan]
  granted t m ht := by cases ht
  pending t m ht := by cases ht
  holders m t ht := by cases ht
  nonnull m := Finset.notMem_empty 0
  held m ht := by cases ht.choose_spec
  asked t m ht := by cases ht

theorem Steady.mutex_run (hs : Steady k.state a) (hi : k.calls.Inv a) (h : k.calls.Safe a)
    (hr : ReflTransGen MutexStep k k') :
    ∃ a', Steady k'.state a' ∧ k'.calls.Inv a' ∧ k'.calls.Safe a' := by
  induction hr with
  | refl => exact ⟨a, hs, hi, h⟩
  | tail _ hstep ih =>
    obtain ⟨a', hs', hi', h'⟩ := ih
    obtain ⟨e, hnext, hrel⟩ := hstep
    obtain ⟨hs'', hi'', hcalls⟩ := hnext.inv hs' hi'
    refine ⟨_, hs'', hi'', ?_⟩
    rw [hcalls]
    refine h'.step hi' hs'.resting (hs'.rep.allowed.mp hnext.1) fun m hm => ?_
    rw [← hs'.rep.current_eq]
    exact hrel m hm

/-- In every run in which only holders release: the threads between the return of
their acquire and their release are at most one, the owner; a mutex without owner
has no waiters; the wait queue lists the blocked threads whose acquire has not been
granted, in the order in which they called; and a release makes the first of them
the owner, or nobody. -/
theorem mutex_safe {s : SchedState} {root idle cleaner : ℕ} (hb : Boot s)
    (hm : Blocks root idle cleaner) :
    ∃ s₀, initializeMultitasking s root idle cleaner = .ok s₀ ∧
      ∀ k, ReflTransGen MutexStep ⟨s₀, Calls.start⟩ k → ∀ m ∈ k.state.mutexes,
        ∃ q, Linked 0 k.state.next (k.state.mutexFirst m) q ∧ q.Nodup ∧
          (∀ t ∈ k.calls.holders m, k.state.ownerThread m = t) ∧ (k.calls.holders m).card ≤ 1 ∧
          (k.state.ownerThread m = 0 → q = []) ∧
          (∀ t, t ∈ q ↔ t ∈ k.state.alive ∧ (k.state.tcb t).state = .blocked ∧
            k.calls.call t = some (.mutex m) ∧ t ∉ k.calls.granted) ∧
          (∀ t, k.calls.call t = some (.mutex m) → t ∉ k.calls.granted → t ∈ q) ∧
          q.Pairwise (fun t u => k.calls.since t < k.calls.since u) ∧
          ∀ k', k.Next (.releaseMutex m) k' → k.state.currentThread ∈ k.calls.holders m →
            k'.state.ownerThread m = q.headD 0 ∧
            Linked 0 k'.state.next (k'.state.mutexFirst m) q.tail := by
  obtain ⟨s₀, hs₀, h₀⟩ := initializeMultitasking_steady hb hm
  refine ⟨s₀, hs₀, fun k hr m _ => ?_⟩
  obtain ⟨a, hs, hi, h⟩ := Steady.mutex_run (k := ⟨s₀, Calls.start⟩) h₀ start_inv start_safe hr
  have howner : k.state.ownerThread = a.ownerThread := congrArg Common.ownerThread hs.rep.common
  refine ⟨a.queue (.mutex m), hs.rep.queues.linked (.mutex m), hs.resting.nodup _, ?_, ?_, ?_,
    fun t => ⟨fun ht => ?_, fun ⟨_, _, hc, hg⟩ => ?_⟩, fun t hc hg => ?_,
    hi.ordered (.mutex m), fun k' hnext _ => ?_⟩
  · rw [howner]
    exact h.holders m
  · refine Finset.card_le_one.mpr fun t ht u hu => ?_
    exact (h.holders m t ht).symm.trans (h.holders m u hu)
  · rw [howner]
    exact h.queued m
  · have hc := hi.called (.mutex m) t ht
    rw [hs.rep.alive_eq, hs.rep.tcb_eq]
    refine ⟨hs.resting.alive _ t ht, hs.resting.state _ t ht, hc, fun hg => ?_⟩
    exact (h.granted t m hc).mp hg ht
  · exact not_not.mp fun hnot => hg ((h.granted t m hc).mpr hnot)
  · exact not_not.mp fun hnot => hg ((h.granted t m hc).mpr hnot)
  · obtain ⟨hs', -, -⟩ := hnext.inv hs hi
    have howner' : k'.state.ownerThread = (a.step (.releaseMutex m)).ownerThread :=
      congrArg Common.ownerThread hs'.rep.common
    have hqueue : (a.step (.releaseMutex m)).queue (.mutex m) = (a.queue (.mutex m)).tail :=
      (hs.resting.waiters_step (.releaseMutex m) (.mutex m)).trans Locks.waiters_wake_self
    refine ⟨?_, ?_⟩
    · rw [howner']
      exact (congrFun (hs.resting.ownerThread_step (.releaseMutex m)) m).trans (update_self ..)
    · have hlinked := hs'.rep.queues.linked (.mutex m)
      rw [hqueue] at hlinked
      exact hlinked

/-- The list model and what was seen of its calls, after one more event. -/
def watch (x : Plan × Calls) (e : Event) : Plan × Calls :=
  (x.1.step e, x.2.observe x.1.toCommon (x.1.step e).toCommon e)

/-- The pointers and their calls are those of the list model. -/
structure Watched (k : Observed) (x : Plan × Calls) : Prop where
  steady : Steady k.state x.1
  calls : k.calls = x.2

theorem Watched.exists_next {x : Plan × Calls} (h : Watched k x) (he : x.1.Allowed e) :
    ∃ k', k.Next e k' ∧ Watched k' (watch x e) := by
  obtain ⟨s', ⟨he', hs'⟩, h'⟩ := h.steady.exists_step he
  refine ⟨⟨s', k.calls.observe k.state.toCommon s'.toCommon e⟩, ⟨he', hs', rfl⟩, h', ?_⟩
  rw [h.steady.rep.common, h'.rep.common, h.calls]
  rfl

/-- A mutex is released by a thread that holds it. -/
def holding (x : Plan × Calls) : Event → Bool
  | .releaseMutex m => x.1.currentThread ∈ x.2.holders m
  | _ => true

theorem Watched.follow_mutex {x : Plan × Calls} (h : Watched k x) (es : List Event)
    (hes : Along watch (fun x e => x.1.Allowed e ∧ holding x e) x es) :
    ∃ k', ReflTransGen MutexStep k k' ∧ Watched k' (es.foldl watch x) := by
  refine hes.follow (fun {k x e} h he => ?_) h
  obtain ⟨k', hnext, h'⟩ := h.exists_next he.1
  refine ⟨k', ⟨e, hnext, ?_⟩, h'⟩
  rintro m rfl
  rw [h.steady.rep.current_eq, h.calls]
  exact of_decide_eq_true he.2

/-- The new thread is ticked until the root thread is awake, and goes to sleep itself. -/
def mutexEvents : List Event := sampleEvents ++ [.tick, .tick, .threadSleep 5]

/-- The root thread holds the mutex, the cleaner is blocked on it, and gets it by the
root's release. -/
theorem mutex_safe_sample :
    ∃ s₀ k k', initializeMultitasking zeroState 16 32 48 = .ok s₀ ∧
      ReflTransGen MutexStep ⟨s₀, Calls.start⟩ k ∧ 16 ∈ k.calls.holders 64 ∧
      k.state.ownerThread 64 = 16 ∧ (k.state.tcb 48).state = .blocked ∧
      k.Next (.releaseMutex 64) k' ∧ k'.state.ownerThread 64 = 48 := by
  obtain ⟨s₀, hs₀, hrun⟩ := mutex_safe zeroState_boot sampleBlocks
  obtain ⟨s, hs, h₀⟩ := initializeMultitasking_steady zeroState_boot sampleBlocks
  cases hs.symm.trans hs₀
  have hw : Watched ⟨s₀, Calls.start⟩ (startPlan zeroState 16 32 48, Calls.start) := ⟨h₀, rfl⟩
  obtain ⟨k, hr, h⟩ := hw.follow_mutex mutexEvents (by decide +kernel)
  obtain ⟨k', hnext, -⟩ := h.exists_next (e := .releaseMutex 64) (by decide +kernel)
  have hmem : 64 ∈ k.state.mutexes := by
    rw [h.steady.rep.common]
    decide +kernel
  obtain ⟨q, hlinked, -, howner, -, -, hq, -, -, hrelease⟩ := hrun k hr 64 hmem
  have hqueue : q = [48] :=
    (hlinked.unique (h.steady.rep.queues.linked (.mutex 64))).trans (by decide +kernel)
  have hholds : 16 ∈ k.calls.holders 64 := by
    rw [h.calls]
    decide +kernel
  have hcur : k.state.currentThread = 16 := h.steady.rep.current_eq.trans (by decide +kernel)
  have hblocked := ((hq 48).mp (by simp [hqueue])).2.1
  have howner' := (hrelease k' hnext (hcur ▸ hholds)).1
  rw [hqueue] at howner'
  exact ⟨s₀, k, k', hs₀, hr, hholds, howner 16 hholds, hblocked, hnext, howner'⟩

end Results

end KallarOS.Sched
