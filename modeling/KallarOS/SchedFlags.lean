import KallarOS.SchedReaping

namespace KallarOS.Sched
open Function Relation

/-- The two EFLAGS words kept for a thread: the one its lock saved and the one in its
switch frame. -/
def Thread.flags (t : Thread) : BitVec 32 × BitVec 32 := (t.savedInterruptState, t.frameEflags)

namespace Plan

variable {a b c : Plan} {t x : ℕ} {p : Place} {f : Thread → Thread}

def SameFlags (a b : Plan) : Prop := ∀ x, (b.tcb x).flags = (a.tcb x).flags

theorem SameFlags.trans (h : SameFlags a b) (h' : SameFlags b c) : SameFlags a c :=
  fun x => (h' x).trans (h x)

theorem sameFlags_of_tcb (h : b.tcb = a.tcb) : SameFlags a b := fun x => by rw [h]

theorem sameFlags_modify (hf : ∀ th, (f th).flags = th.flags) : SameFlags a (a.modify t f) := by
  intro x
  by_cases hx : x = t
  · rw [hx, tcb_modify_self]
    exact hf _
  · rw [tcb_modify_of_ne hx]

theorem sameFlags_push : SameFlags a (a.push p t) := sameFlags_of_tcb tcb_push

theorem sameFlags_remove : SameFlags a (a.remove p t) := sameFlags_of_tcb tcb_remove

theorem sameFlags_enqueueThread {i : ℕ} : SameFlags a (a.enqueueThread t i) := by
  refine SameFlags.trans (sameFlags_modify ?_) sameFlags_push
  exact fun _ => rfl

theorem sameFlags_lift (hf : ∀ th, (f th).flags = th.flags) : SameFlags a (a.lift p t f) :=
  (sameFlags_modify hf).trans (sameFlags_remove.trans sameFlags_enqueueThread)

theorem sameFlags_promote : SameFlags a (a.promote p t) := by
  refine SameFlags.trans (sameFlags_modify ?_) (sameFlags_remove.trans sameFlags_enqueueThread)
  exact fun _ => rfl

theorem flags_createKernelThread_self (a : Plan) (t : ℕ) :
    ((a.createKernelThread t).tcb t).flags = (newEflags, newEflags) := by
  rw [createKernelThread, tcb_enqueueThread_self]
  simp [Thread.flags, newThread]

theorem flags_createKernelThread_of_ne (a : Plan) (hx : x ≠ t) :
    ((a.createKernelThread t).tcb x).flags = (a.tcb x).flags := by
  rw [createKernelThread, tcb_enqueueThread_of_ne hx]
  exact congrArg Thread.flags (update_of_ne hx _ _)

section Ticks

theorem sameFlags_wakeSleepers (ts : List ℕ) (a : Plan) : SameFlags a (wakeSleepers ts a) := by
  induction ts generalizing a with
  | nil => exact fun _ => rfl
  | cons t ts ih =>
    rw [wakeSleepers]
    split_ifs
    · exact (sameFlags_lift (by exact fun _ => rfl)).trans (ih _)
    · exact ih a

theorem sameFlags_drainQueue (i : ℕ) (ts : List ℕ) (a : Plan) :
    SameFlags a (drainQueue i ts a) := by
  induction ts generalizing a with
  | nil => exact fun _ => rfl
  | cons t ts ih => exact (sameFlags_lift (by exact fun _ => rfl)).trans (ih _)

theorem sameFlags_resetQueues (a : Plan) : SameFlags a a.resetQueues :=
  (sameFlags_drainQueue 1 _ a).trans (sameFlags_drainQueue 2 _ _)

theorem sameFlags_chargeCurrent (a : Plan) : SameFlags a a.chargeCurrent.2 := by
  have hcharge : SameFlags a (a.modify a.currentThread Thread.charge) :=
    sameFlags_modify fun _ => rfl
  rw [chargeCurrent]
  split_ifs
  · refine hcharge.trans (sameFlags_modify ?_)
    intro th
    unfold Thread.demote
    split_ifs <;> rfl
  · exact hcharge

theorem sameFlags_boostCurrent (a : Plan) : SameFlags a a.boostCurrent := by
  rw [boostCurrent]
  split_ifs
  · exact sameFlags_modify fun _ => rfl
  · exact fun _ => rfl

theorem sameFlags_tickBody (a : Plan) : SameFlags a a.tickBody.2 := by
  have hcount : ∀ b : Plan, SameFlags b b.countTick := fun _ _ => rfl
  refine (sameFlags_wakeSleepers (a.queue .sleeping) a).trans ?_
  rw [tickBody, idleTick, busyTick]
  split_ifs
  · exact (hcount _).trans (sameFlags_resetQueues _)
  · exact hcount _
  · exact ((sameFlags_chargeCurrent _).trans (hcount _)).trans
      ((sameFlags_resetQueues _).trans (sameFlags_boostCurrent _))
  · exact (sameFlags_chargeCurrent _).trans (hcount _)

end Ticks

/-- From `c`, where the lock is held, the CPU is handed to the current thread of `b`: the
old thread's EFLAGS go to its frame and the new thread's come from its own. -/
structure Handover (c b : Plan) : Prop where
  saved : ∀ x, (b.tcb x).savedInterruptState = (c.tcb x).savedInterruptState
  frames : ∀ x, x ≠ c.currentThread → (b.tcb x).frameEflags = (c.tcb x).frameEflags
  stay : b.currentThread = c.currentThread → b.eflags = c.eflags
  leave : b.currentThread ≠ c.currentThread → b.eflags = (c.tcb b.currentThread).frameEflags ∧
    (b.tcb c.currentThread).frameEflags = c.eflags

theorem SameFlags.handover (h : SameFlags c b) (hcur : b.currentThread = c.currentThread)
    (he : b.eflags = c.eflags) : Handover c b where
  saved x := congrArg Prod.fst (h x)
  frames x _ := congrArg Prod.snd (h x)
  stay _ := he
  leave hne := absurd hcur hne

theorem SameFlags.then_handover (h : SameFlags a c) (hcur : c.currentThread = a.currentThread)
    (he : c.eflags = a.eflags) (h' : Handover c b) : Handover a b where
  saved x := (h'.saved x).trans (congrArg Prod.fst (h x))
  frames x hx := (h'.frames x (hcur ▸ hx)).trans (congrArg Prod.snd (h x))
  stay hb := (h'.stay (hb.trans hcur.symm)).trans he
  leave hb := by
    obtain ⟨h1, h2⟩ := h'.leave (hcur.symm ▸ hb)
    rw [hcur] at h2
    exact ⟨h1.trans (congrArg Prod.snd (h _)), h2.trans he⟩

theorem handover_dispatch (c : Plan) (next : ℕ) :
    Handover c (c.dispatch c.currentThread next) := by
  have hrun : SameFlags c (c.modify next fun t => { t with state := .running }) :=
    sameFlags_modify fun _ => rfl
  by_cases he : c.currentThread = next
  · rw [dispatch, if_pos he]
    exact hrun.handover rfl rfl
  · rw [dispatch, if_neg he, switchToTask]
    refine ⟨?_, ?_, ?_, ?_⟩
    · intro x
      have hx : ((modify { c.modify next fun t => { t with state := .running } with
          currentThread := next } c.currentThread fun t =>
            { t with frameEflags := c.eflags }).tcb x).savedInterruptState =
          ((c.modify next fun t => { t with state := .running }).tcb x).savedInterruptState := by
        by_cases hx : x = c.currentThread
        · rw [hx, tcb_modify_self]
        · rw [tcb_modify_of_ne hx]
      exact hx.trans (congrArg Prod.fst (hrun x))
    · intro x hx
      have hframe := congrArg Prod.snd (hrun x)
      simp only [tcb_modify_of_ne hx]
      exact hframe
    · intro hc
      exact absurd hc.symm he
    · intro _
      have hframe := congrArg Prod.snd (hrun next)
      simp only [tcb_modify_of_ne (Ne.symm he), tcb_modify_self]
      exact ⟨rfl, rfl⟩

theorem sameFlags_requeue (a : Plan) : SameFlags a a.requeue := by
  rw [requeue]
  split_ifs
  · exact (sameFlags_modify (by exact fun _ => rfl)).trans sameFlags_enqueueThread
  · exact sameFlags_modify fun _ => rfl
  · exact fun _ => rfl

theorem handover_reschedule (c : Plan) : Handover c c.reschedule := by
  have hrequeue : c.requeue.currentThread = c.currentThread ∧ c.requeue.eflags = c.eflags := by
    rw [requeue]
    split_ifs <;> exact ⟨rfl, rfl⟩
  have hdequeue : c.requeue.dequeueThread.2.tcb = c.requeue.tcb ∧
      c.requeue.dequeueThread.2.currentThread = c.requeue.currentThread ∧
      c.requeue.dequeueThread.2.eflags = c.requeue.eflags := by
    rw [dequeueThread]
    split <;> exact ⟨rfl, rfl, rfl⟩
  have hsame : SameFlags c c.requeue.dequeueThread.2 :=
    (sameFlags_requeue c).trans (sameFlags_of_tcb hdequeue.1)
  rw [reschedule]
  exact hsame.then_handover (hdequeue.2.1.trans hrequeue.1) (hdequeue.2.2.trans hrequeue.2)
    (handover_dispatch _ _)

theorem handover_blockOn (hf : ∀ th, (f th).flags = th.flags) :
    Handover a.lockScheduler (a.blockOn p f) := by
  have hsame : SameFlags a.lockScheduler
      ((a.lockScheduler.modify a.currentThread f).push p a.currentThread) :=
    (sameFlags_modify hf).trans sameFlags_push
  exact hsame.then_handover rfl rfl (handover_reschedule _)

end Plan

theorem interruptFlag_cli (eflags : BitVec 32) : interruptFlag (cli eflags) = false := by
  simp [interruptFlag, cli]

theorem resting_withFlags {a : Plan} (h : a.Resting) (eflags : BitVec 32) :
    Plan.Resting { a with eflags := eflags } :=
  ⟨h.toPlaced.congr rfl rfl rfl rfl rfl rfl fun _ => ⟨rfl, rfl⟩, ⟨h.irq, h.postpone, h.flag⟩,
    h.nonnull⟩

theorem rep_withFlags {s : SchedState} {a : Plan} (h : Rep s a) (eflags : BitVec 32) :
    Rep { s with eflags := eflags } { a with eflags := eflags } :=
  h.mapCommon (fun c => { c with eflags := eflags }) (fun _ => rfl) (fun _ => rfl) fun _ => rfl

end KallarOS.Sched
