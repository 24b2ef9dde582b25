import KallarOS.SchedPlan

namespace KallarOS.Sched
open Function

namespace Plan

/-- What holds at every point of every operation: queues are disjoint, and a
queued thread has the state and the level that go with its queue. -/
structure Base (a : Plan) : Prop where
  nodup : ∀ p, (a.queue p).Nodup
  apart : ∀ p p' t, t ∈ a.queue p → t ∈ a.queue p' → p = p'
  alive : ∀ p, ∀ t ∈ a.queue p, t ∈ a.alive
  state : ∀ p, ∀ t ∈ a.queue p, (a.tcb t).state = p.state
  level : ∀ i, ∀ t ∈ a.queue (.ready i), (a.tcb t).priority = i
  levels : ∀ t ∈ a.alive, (a.tcb t).priority < 3
  idle_free : ∀ p, a.idleThread ∉ a.queue p
  mutexes : ∀ m, a.queue (.mutex m) ≠ [] → m ∈ a.mutexes
  semaphores : ∀ m, a.queue (.semaphore m) ≠ [] → m ∈ a.semaphores

/-- A thread may be put into queue `p` with its current state and level. -/
structure Suits (a : Plan) (t : ℕ) (p : Place) : Prop where
  alive : t ∈ a.alive
  free : ∀ p, t ∉ a.queue p
  busy : t ≠ a.idleThread
  state : (a.tcb t).state = p.state
  level : ∀ i, p = .ready i → (a.tcb t).priority = i
  mutexes : ∀ m, p = .mutex m → m ∈ a.mutexes
  semaphores : ∀ m, p = .semaphore m → m ∈ a.semaphores

namespace Base

variable {a b : Plan} {t : ℕ} {p : Place} {f : Thread → Thread}

theorem notMem_remove (h : a.Base) (ht : t ∈ a.queue p) (p' : Place) :
    t ∉ (a.remove p t).queue p' := by
  intro hm
  have hp : p' = p := h.apart p' p t (mem_of_mem_remove hm) ht
  rw [hp, queue_remove_self] at hm
  exact (h.nodup p).not_mem_erase hm

/-- Only states, levels and queues matter. -/
theorem congr (h : a.Base) (hq : b.queue = a.queue) (hal : b.alive = a.alive)
    (hid : b.idleThread = a.idleThread) (hm : b.mutexes = a.mutexes)
    (hs : b.semaphores = a.semaphores)
    (ht : ∀ t, (b.tcb t).state = (a.tcb t).state ∧ (b.tcb t).priority = (a.tcb t).priority) :
    b.Base where
  nodup := hq ▸ h.nodup
  apart := hq ▸ h.apart
  alive := by rw [hq, hal]; exact h.alive
  state p t hp := by rw [(ht t).1]; exact h.state p t (hq ▸ hp)
  level i t hp := by rw [(ht t).2]; exact h.level i t (hq ▸ hp)
  levels t hp := by rw [(ht t).2]; exact h.levels t (hal ▸ hp)
  idle_free := by rw [hq, hid]; exact h.idle_free
  mutexes := by rw [hq, hm]; exact h.mutexes
  semaphores := by rw [hq, hs]; exact h.semaphores

/-- A thread in no queue may get any state and any of the three levels. -/
theorem modify (h : a.Base) (ht : ∀ p, t ∉ a.queue p) (hf : (f (a.tcb t)).priority < 3) :
    (a.modify t f).Base where
  nodup := h.nodup
  apart := h.apart
  alive := h.alive
  state p x hx := by
    have hne : x ≠ t := fun he => ht p (he ▸ hx)
    rw [tcb_modify_of_ne hne]
    exact h.state p x hx
  level i x hx := by
    have hne : x ≠ t := fun he => ht (.ready i) (he ▸ hx)
    rw [tcb_modify_of_ne hne]
    exact h.level i x hx
  levels x hx := by
    by_cases he : x = t
    · rw [he, tcb_modify_self]
      exact hf
    · rw [tcb_modify_of_ne he]
      exact h.levels x hx
  idle_free := h.idle_free
  mutexes := h.mutexes
  semaphores := h.semaphores

theorem remove (h : a.Base) (p : Place) (t : ℕ) : (a.remove p t).Base where
  nodup p' := by
    simp only [Plan.remove, update_apply]
    split_ifs
    · exact (h.nodup p).erase t
    · exact h.nodup p'
  apart p' p'' x hx hx' := h.apart p' p'' x (mem_of_mem_remove hx) (mem_of_mem_remove hx')
  alive p' x hx := h.alive p' x (mem_of_mem_remove hx)
  state p' x hx := h.state p' x (mem_of_mem_remove hx)
  level i x hx := h.level i x (mem_of_mem_remove hx)
  levels := h.levels
  idle_free p' hm := h.idle_free p' (mem_of_mem_remove hm)
  mutexes m hne := by
    obtain ⟨x, hx⟩ := List.exists_mem_of_ne_nil _ hne
    exact h.mutexes m (List.ne_nil_of_mem (mem_of_mem_remove hx))
  semaphores m hne := by
    obtain ⟨x, hx⟩ := List.exists_mem_of_ne_nil _ hne
    exact h.semaphores m (List.ne_nil_of_mem (mem_of_mem_remove hx))

theorem push (h : a.Base) (ht : a.Suits t p) : (a.push p t).Base where
  nodup p' := by
    simp only [Plan.push, update_apply]
    split_ifs
    · exact (h.nodup p).append (List.nodup_singleton t) (by simpa using ht.free p)
    · exact h.nodup p'
  apart p' p'' x hx hx' := by
    rcases mem_push.mp hx with hx | ⟨rfl, rfl⟩ <;> rcases mem_push.mp hx' with hx' | ⟨he, he'⟩
    · exact h.apart p' p'' x hx hx'
    · exact absurd (he ▸ hx) (ht.free p')
    · exact absurd hx' (ht.free p'')
    · exact he'.symm
  alive p' x hx := by
    rcases mem_push.mp hx with hx | ⟨rfl, rfl⟩
    · exact h.alive p' x hx
    · exact ht.alive
  state p' x hx := by
    rcases mem_push.mp hx with hx | ⟨rfl, rfl⟩
    · exact h.state p' x hx
    · exact ht.state
  level i x hx := by
    rcases mem_push.mp hx with hx | ⟨rfl, hp⟩
    · exact h.level i x hx
    · exact ht.level i hp.symm
  levels := h.levels
  idle_free p' hm := by
    rcases mem_push.mp hm with hm | ⟨he, -⟩
    · exact h.idle_free p' hm
    · exact ht.busy he.symm
  mutexes m hne := by
    obtain ⟨x, hx⟩ := List.exists_mem_of_ne_nil _ hne
    rcases mem_push.mp hx with hx | ⟨-, hp⟩
    · exact h.mutexes m (List.ne_nil_of_mem hx)
    · exact ht.mutexes m hp.symm
  semaphores m hne := by
    obtain ⟨x, hx⟩ := List.exists_mem_of_ne_nil _ hne
    rcases mem_push.mp hx with hx | ⟨-, hp⟩
    · exact h.semaphores m (List.ne_nil_of_mem hx)
    · exact ht.semaphores m hp.symm

/-- A ready thread outside all queues enters its ready queue. -/
theorem enqueueThread {i : ℕ} (h : a.Base) (hal : t ∈ a.alive) (ht : ∀ p, t ∉ a.queue p)
    (hidle : t ≠ a.idleThread) (hs : (a.tcb t).state = .ready) (hi : i < 3) :
    (a.enqueueThread t i).Base := by
  refine (h.modify ht (by exact hi)).push ⟨hal, ht, hidle, ?_, ?_, by simp, by simp⟩
  · simpa using hs
  · rintro j hj
    cases hj
    simp

/-- A queued thread goes to a ready queue. -/
theorem requeue {i : ℕ} (h : a.Base) (ht : t ∈ a.queue p) (hs : (f (a.tcb t)).state = .ready)
    (hf : (f (a.tcb t)).priority < 3) (hi : i < 3) :
    (((a.modify t f).remove p t).enqueueThread t i).Base := by
  have hfree := h.notMem_remove ht
  refine Base.enqueueThread ((h.remove p t).modify hfree hf) (h.alive p t ht) hfree ?_ ?_ hi
  · exact fun he => h.idle_free p (he ▸ ht)
  · simpa using hs

end Base

/-- Every thread but the current one and the idle thread waits in a queue. -/
structure Settled (a : Plan) : Prop extends Base a where
  current : a.currentThread ∈ a.alive
  idle : a.idleThread ∈ a.alive
  waits : ∀ t ∈ a.alive, t ≠ a.idleThread → t ≠ a.currentThread → ∃ p, t ∈ a.queue p
  calm : (a.tcb a.idleThread).state = .running → a.idleThread = a.currentThread

/-- As `Settled`, with the current thread running. -/
structure Placed (a : Plan) : Prop extends Settled a where
  running : (a.tcb a.currentThread).state = .running

/-- No thread runs: the state between the two halves of `yield`. -/
structure Vacant (a : Plan) : Prop extends Base a where
  current : a.currentThread ∈ a.alive
  idle : a.idleThread ∈ a.alive
  waits : ∀ t ∈ a.alive, t ≠ a.idleThread → ∃ p, t ∈ a.queue p
  calm : (a.tcb a.idleThread).state ≠ .running

section Fields

variable (a b : Plan) (x t prev next : ℕ)

/-- A dispatch changes one state, and the frame of the thread it leaves. -/
theorem tcb_dispatch : ∃ e, (a.dispatch prev next).tcb x =
    { (a.modify next fun t => { t with state := .running }).tcb x with frameEflags := e } := by
  by_cases he : prev = next
  · exact ⟨_, by rw [dispatch, if_pos he]⟩
  · by_cases hx : x = prev
    · refine ⟨a.eflags, ?_⟩
      simp [dispatch, he, switchToTask, modify, hx]
    · refine ⟨((a.modify next fun t => { t with state := .running }).tcb x).frameEflags, ?_⟩
      simp [dispatch, he, switchToTask, modify, hx]

theorem currentThread_dispatch : (a.dispatch a.currentThread next).currentThread = next := by
  by_cases he : a.currentThread = next
  · rw [dispatch, if_pos he]
    exact he
  · rw [dispatch, if_neg he]
    rfl

theorem queue_dispatch : (a.dispatch prev next).queue = a.queue := by
  rw [dispatch]
  split_ifs <;> rfl

theorem alive_dispatch : (a.dispatch prev next).alive = a.alive := by
  rw [dispatch]
  split_ifs <;> rfl

theorem idleThread_dispatch : (a.dispatch prev next).idleThread = a.idleThread := by
  rw [dispatch]
  split_ifs <;> rfl

theorem mutexes_dispatch : (a.dispatch prev next).mutexes = a.mutexes := by
  rw [dispatch]
  split_ifs <;> rfl

theorem semaphores_dispatch : (a.dispatch prev next).semaphores = a.semaphores := by
  rw [dispatch]
  split_ifs <;> rfl

theorem tcb_requeue : ∃ st, a.requeue.tcb x = { a.tcb x with state := st } := by
  rw [requeue]
  split_ifs
  · by_cases hx : x = a.currentThread
    · exact ⟨.ready, by simp [hx]⟩
    · exact ⟨_, by rw [tcb_enqueueThread_of_ne hx, tcb_modify_of_ne hx]⟩
  · by_cases hx : x = a.currentThread
    · exact ⟨.ready, by simp [hx]⟩
    · exact ⟨_, by rw [tcb_modify_of_ne hx]⟩
  · exact ⟨_, rfl⟩

theorem tcb_dequeueThread : a.dequeueThread.2.tcb = a.tcb := by
  rw [dequeueThread]
  split <;> rfl

/-- A reschedule changes nothing of a control block but the state and the frame. -/
theorem tcb_reschedule : ∃ st e, a.reschedule.tcb x =
    { a.tcb x with state := st, frameEflags := e } := by
  -- taking the successor off its queue touches no thread, dispatching it only a state and a frame
  have hdequeue := a.requeue.tcb_dequeueThread
  obtain ⟨st, hst⟩ := a.tcb_requeue x
  obtain ⟨e, he⟩ := a.requeue.dequeueThread.2.tcb_dispatch x
    a.requeue.dequeueThread.2.currentThread
    (a.requeue.dequeueThread.2.successor a.requeue.dequeueThread.1)
  rw [reschedule, he]
  by_cases hn : x = a.requeue.dequeueThread.2.successor a.requeue.dequeueThread.1
  · exact ⟨.running, e, by rw [← hn, tcb_modify_self, hdequeue, hst]⟩
  · exact ⟨st, e, by rw [tcb_modify_of_ne hn, hdequeue, hst]⟩

end Fields

section Rescheduling

variable {a b : Plan} {t : ℕ} {p : Place} {f : Thread → Thread}

theorem Base.state_ne_running (h : a.Base) (ht : t ∈ a.queue p) : (a.tcb t).state ≠ .running := by
  rw [h.state p t ht]
  cases p <;> simp

theorem Placed.free (h : a.Placed) (p : Place) : a.currentThread ∉ a.queue p :=
  fun hp => h.state_ne_running hp h.running

theorem Placed.runs (h : a.Placed) : a.Runs := ⟨h.free, h.levels _ h.current⟩

/-- Exactly one thread runs. -/
theorem Placed.running_iff (h : a.Placed) (ht : t ∈ a.alive) :
    (a.tcb t).state = .running ↔ t = a.currentThread := by
  refine ⟨fun hrun => ?_, fun he => he ▸ h.running⟩
  by_contra hne
  by_cases hidle : t = a.idleThread
  · exact hne (hidle.trans (h.calm (hidle ▸ hrun)))
  · obtain ⟨p, hp⟩ := h.waits t ht hidle hne
    exact h.state_ne_running hp hrun

theorem Settled.congr (h : a.Settled) (hq : b.queue = a.queue) (hal : b.alive = a.alive)
    (hid : b.idleThread = a.idleThread) (hcur : b.currentThread = a.currentThread)
    (hm : b.mutexes = a.mutexes) (hs : b.semaphores = a.semaphores)
    (ht : ∀ t, (b.tcb t).state = (a.tcb t).state ∧ (b.tcb t).priority = (a.tcb t).priority) :
    b.Settled where
  toBase := h.toBase.congr hq hal hid hm hs ht
  current := by rw [hcur, hal]; exact h.current
  idle := by rw [hid, hal]; exact h.idle
  waits := by rw [hcur, hal, hid, hq]; exact h.waits
  calm := by rw [hcur, hid, (ht _).1]; exact h.calm

theorem Placed.congr (h : a.Placed) (hq : b.queue = a.queue) (hal : b.alive = a.alive)
    (hid : b.idleThread = a.idleThread) (hcur : b.currentThread = a.currentThread)
    (hm : b.mutexes = a.mutexes) (hs : b.semaphores = a.semaphores)
    (ht : ∀ t, (b.tcb t).state = (a.tcb t).state ∧ (b.tcb t).priority = (a.tcb t).priority) :
    b.Placed where
  toSettled := h.toSettled.congr hq hal hid hcur hm hs ht
  running := by rw [hcur, (ht _).1]; exact h.running

/-- `yield` puts a running thread back; any other has queued itself before. -/
theorem Settled.requeue (h : a.Settled)
    (hcur : (a.tcb a.currentThread).state ≠ .running → ∃ p, a.currentThread ∈ a.queue p) :
    a.requeue.Vacant := by
  have hlevel := h.levels _ h.current
  rw [Plan.requeue]
  by_cases hrun : (a.tcb a.currentThread).state = .running
  · have hfree : ∀ p, a.currentThread ∉ a.queue p := fun p hp => h.state_ne_running hp hrun
    have hbase := h.toBase.modify (f := fun t => { t with state := .ready }) hfree (by exact hlevel)
    rw [if_pos hrun]
    -- the idle thread is made ready but never queued
    by_cases hidle : a.currentThread = a.idleThread
    · simp only [hidle, ne_eq, not_true_eq_false, if_false]
      rw [hidle] at hbase
      refine ⟨hbase, h.current, h.idle, fun t ht hne => h.waits t ht hne (hidle ▸ hne), ?_⟩
      change ((a.modify a.idleThread _).tcb a.idleThread).state ≠ _
      simp
    · simp only [ne_eq, hidle, not_false_eq_true, if_true]
      refine ⟨hbase.enqueueThread h.current hfree hidle (by simp) hlevel, h.current, h.idle,
        fun t ht hne => ?_, ?_⟩
      · by_cases htc : t = a.currentThread
        · exact ⟨.ready (a.tcb a.currentThread).priority, mem_enqueueThread.mpr (.inr ⟨htc, rfl⟩)⟩
        · obtain ⟨p, hp⟩ := h.waits t ht hne htc
          exact ⟨p, mem_enqueueThread.mpr (.inl hp)⟩
      · change ((enqueueThread _ _ _).tcb a.idleThread).state ≠ _
        rw [tcb_enqueueThread_of_ne (Ne.symm hidle), tcb_modify_of_ne (Ne.symm hidle)]
        exact fun hr => hidle (h.calm hr).symm
  -- a thread that sleeps, blocks or exits has joined its queue before `yield`
  · rw [if_neg hrun]
    obtain ⟨p, hp⟩ := hcur hrun
    refine ⟨h.toBase, h.current, h.idle, fun t ht hne => ?_, fun hr => ?_⟩
    · by_cases htc : t = a.currentThread
      · exact ⟨p, htc ▸ hp⟩
      · exact h.waits t ht hne htc
    · exact hrun (h.calm hr ▸ hr)

/-- A thread in no queue takes the CPU. -/
theorem Base.dispatch (h : a.Base) (hcur : t ∈ a.alive) (hidle : a.idleThread ∈ a.alive)
    (hfree : ∀ p, t ∉ a.queue p)
    (hwaits : ∀ x ∈ a.alive, x ≠ a.idleThread → x ≠ t → ∃ p, x ∈ a.queue p)
    (hcalm : (a.tcb a.idleThread).state ≠ .running) : (a.dispatch a.currentThread t).Placed := by
  have hbase := h.modify (f := fun t => { t with state := .running }) hfree (h.levels t hcur)
  have htcb := fun x => a.tcb_dispatch x a.currentThread t
  have hsame : ∀ x, ((a.dispatch a.currentThread t).tcb x).state =
      ((a.modify t fun t => { t with state := .running }).tcb x).state ∧
      ((a.dispatch a.currentThread t).tcb x).priority =
      ((a.modify t fun t => { t with state := .running }).tcb x).priority := by
    intro x
    obtain ⟨e, he⟩ := htcb x
    exact ⟨by rw [he], by rw [he]⟩
  refine ⟨⟨hbase.congr (a.queue_dispatch ..) (a.alive_dispatch ..) (a.idleThread_dispatch ..)
    (a.mutexes_dispatch ..) (a.semaphores_dispatch ..) hsame, ?_, ?_, ?_, ?_⟩, ?_⟩
  · rw [currentThread_dispatch, alive_dispatch]
    exact hcur
  · rw [idleThread_dispatch, alive_dispatch]
    exact hidle
  · rw [alive_dispatch, idleThread_dispatch, currentThread_dispatch, queue_dispatch]
    exact hwaits
  · rw [idleThread_dispatch, currentThread_dispatch, (hsame _).1]
    intro hr
    by_contra hne
    rw [tcb_modify_of_ne hne] at hr
    exact hcalm hr
  · rw [currentThread_dispatch, (hsame t).1, tcb_modify_self]

theorem topLevel_some {i : ℕ} (h : a.topLevel = some i) :
    i < 3 ∧ a.queue (.ready i) ≠ [] ∧ ∀ j < i, a.queue (.ready j) = [] := by
  simp only [topLevel, List.find?_cons, List.find?_nil] at h
  split at h
  · next h0 =>
    cases h
    exact ⟨by omega, by simpa using h0, by omega⟩
  · next h0 =>
    split at h
    · next h1 =>
      cases h
      refine ⟨by omega, by simpa using h1, fun j hj => ?_⟩
      obtain rfl : j = 0 := by omega
      simpa using h0
    · next h1 =>
      split at h
      · next h2 =>
        cases h
        refine ⟨by omega, by simpa using h2, fun j hj => ?_⟩
        obtain rfl | rfl : j = 0 ∨ j = 1 := by omega
        · simpa using h0
        · simpa using h1
      · cases h

theorem topLevel_none (h : a.topLevel = none) (i : ℕ) (hi : i < 3) : a.queue (.ready i) = [] := by
  have hall := List.find?_eq_none.mp h i (by simp; omega)
  simpa using hall

theorem Vacant.dispatch (h : a.Vacant) (h0 : 0 ∉ a.alive) :
    (a.dequeueThread.2.dispatch a.dequeueThread.2.currentThread
      (a.dequeueThread.2.successor a.dequeueThread.1)).Placed := by
  rw [dequeueThread]
  cases htop : a.topLevel with
  | none =>
    simp only [successor, if_true]
    exact h.toBase.dispatch h.idle h.idle h.idle_free (fun x hx hne _ => h.waits x hx hne) h.calm
  | some i =>
    obtain ⟨t, ts, hq⟩ := List.exists_cons_of_ne_nil (topLevel_some htop).2.1
    have hmem : t ∈ a.queue (.ready i) := by simp [hq]
    have hal := h.alive _ t hmem
    have ht0 : ¬ t = 0 := fun he => h0 (he ▸ hal)
    simp only [hq, List.headD_cons, successor, if_neg ht0]
    refine (h.toBase.remove _ t).dispatch hal h.idle (h.notMem_remove hmem) (fun x hx hne hxt => ?_)
      h.calm
    obtain ⟨p, hp⟩ := h.waits x hx hne
    refine ⟨p, ?_⟩
    simp only [Plan.remove, update_apply]
    split_ifs with hpi
    · exact (List.mem_erase_of_ne hxt).mpr (hpi ▸ hp)
    · exact hp

/-- Whatever the caller's state, after a reschedule one thread runs and the others
are in their places. -/
theorem Settled.reschedule (h : a.Settled) (h0 : 0 ∉ a.alive)
    (hcur : (a.tcb a.currentThread).state ≠ .running → ∃ p, a.currentThread ∈ a.queue p) :
    a.reschedule.Placed := by
  refine (h.requeue hcur).dispatch ?_
  rw [Plan.requeue]
  simp only
  split_ifs <;> exact h0

end Rescheduling

end Plan

end KallarOS.Sched
