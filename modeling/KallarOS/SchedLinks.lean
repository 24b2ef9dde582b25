import KallarOS.QueueFamilies
import KallarOS.SchedPlan

namespace KallarOS.Sched
open Function Chains

namespace SchedState

/-- The head pointer of every queue. -/
def head (s : SchedState) : Place → ℕ
  | .ready i => s.firstReady i
  | .sleeping => s.sleepingThreadQueue
  | .terminated => s.terminatedThreadQueue
  | .detached => s.detachedQueue
  | .mutex m => s.mutexFirst m
  | .semaphore m => s.semFirst m

/-- The tail pointer of the queues that have one. -/
def last (s : SchedState) : Place → Option ℕ
  | .ready i => some (s.lastReady i)
  | .mutex m => some (s.mutexLast m)
  | .semaphore m => some (s.semLast m)
  | _ => none

end SchedState

/-- The pointers of `s` are the lists of `a`, and everything else agrees. A tail
pointer counts only while its queue has a thread. -/
structure Rep (s : SchedState) (a : Plan) : Prop where
  common : s.toCommon = a.toCommon
  queues : Queues 0 s.next s.head a.queue
  last : ∀ p l, s.last p = some l → ∀ t ∈ (a.queue p).getLast?, l = t
  alive : ∀ p, ∀ t ∈ a.queue p, t ∈ a.alive
  nonnull : 0 ∉ a.alive
  lt : ∀ t ∈ a.alive, t < 2 ^ 32
  current : a.currentThread ∈ a.alive
  idle : a.idleThread ∈ a.alive

/-- The routine returns, in a state that represents `a`. -/
def Refines (x : Outcome SchedState) (a : Plan) : Prop := ∃ s, x = .ok s ∧ Rep s a

theorem Refines.bind {x : Outcome SchedState} {a b : Plan} {f : SchedState → Outcome SchedState}
    (h : Refines x a) (hf : ∀ s, Rep s a → Refines (f s) b) : Refines (x >>= f) b := by
  obtain ⟨s, rfl, hs⟩ := h
  exact hf s hs

theorem Rep.refines {s : SchedState} {a : Plan} (h : Rep s a) : Refines (.ok s) a := ⟨s, rfl, h⟩

namespace Rep

variable {s s' : SchedState} {a : Plan} {t : ℕ} {p : Place}

theorem alive_eq (h : Rep s a) : s.alive = a.alive := congrArg Common.alive h.common
theorem tcb_eq (h : Rep s a) : s.tcb = a.tcb := congrArg Common.tcb h.common
theorem current_eq (h : Rep s a) : s.currentThread = a.currentThread :=
  congrArg Common.currentThread h.common
theorem idle_eq (h : Rep s a) : s.idleThread = a.idleThread := congrArg Common.idleThread h.common

theorem length_lt (h : Rep s a) (p : Place) : (a.queue p).length < 2 ^ 32 := by
  have hsub : (a.queue p).toFinset ⊆ (Finset.range (2 ^ 32)).erase 0 := by
    intro t ht
    have hal := h.alive p t (List.mem_toFinset.mp ht)
    refine Finset.mem_erase.mpr ⟨?_, Finset.mem_range.mpr (h.lt t hal)⟩
    rintro rfl
    exact h.nonnull hal
  have hcard := Finset.card_le_card hsub
  rw [List.toFinset_card_of_nodup (h.queues.nodup p), Finset.card_erase_of_mem (by simp),
    Finset.card_range] at hcard
  omega

theorem load (h : Rep s a) (ht : t ∈ a.alive) : s.load t = .ok (a.tcb t) := by
  rw [SchedState.load, if_pos (h.alive_eq ▸ ht), h.tcb_eq]

theorem readNext (h : Rep s a) (ht : t ∈ a.alive) : s.readNext t = .ok (s.next t) := by
  rw [SchedState.readNext, if_pos (h.alive_eq ▸ ht)]

theorem writeNext (h : Rep s a) (ht : t ∈ a.alive) (v : ℕ) :
    s.writeNext t v = .ok { s with next := update s.next t v } := by
  rw [SchedState.writeNext, if_pos (h.alive_eq ▸ ht)]

/-- Scalars and control blocks change on both sides alike. -/
theorem withCommon (h : Rep s a) (c : Common) (hal : c.alive = a.alive)
    (hcur : c.currentThread ∈ a.alive) (hidle : c.idleThread ∈ a.alive) :
    Rep { s with toCommon := c } { a with toCommon := c } where
  common := rfl
  queues := h.queues
  last := h.last
  alive p t ht := hal ▸ h.alive p t ht
  nonnull := hal ▸ h.nonnull
  lt t ht := h.lt t (hal ▸ ht)
  current := hal ▸ hcur
  idle := hal ▸ hidle

theorem mapCommon (h : Rep s a) (f : Common → Common) (hal : ∀ c, (f c).alive = c.alive)
    (hcur : ∀ c, (f c).currentThread = c.currentThread)
    (hidle : ∀ c, (f c).idleThread = c.idleThread) :
    Rep { s with toCommon := f s.toCommon } { a with toCommon := f a.toCommon } := by
  rw [h.common]
  exact h.withCommon _ (hal _) ((hcur a.toCommon).symm ▸ h.current)
    ((hidle a.toCommon).symm ▸ h.idle)

theorem modify_eq (h : Rep s a) (ht : t ∈ a.alive) (f : Thread → Thread) :
    s.modify t f = .ok { s with tcb := update s.tcb t (f (s.tcb t)) } := by
  rw [SchedState.modify, if_pos (h.alive_eq ▸ ht)]

theorem setThread (h : Rep s a) (t : ℕ) (f : Thread → Thread) :
    Rep { s with tcb := update s.tcb t (f (s.tcb t)) } (a.modify t f) := by
  have hc := h.withCommon { a.toCommon with tcb := update a.tcb t (f (a.tcb t)) } rfl h.current h.idle
  exact { hc with common := by rw [Plan.modify, h.common] }

theorem modify (h : Rep s a) (ht : t ∈ a.alive) (f : Thread → Thread) :
    Refines (s.modify t f) (a.modify t f) := ⟨_, h.modify_eq ht f, h.setThread t f⟩

/-- The link of a thread in no queue may be set to anything. -/
theorem setNext (h : Rep s a) (ht : ∀ p, t ∉ a.queue p) (v : ℕ) :
    Rep { s with next := update s.next t v } a :=
  { h with queues := h.queues.setFree ht v }

/-- `thread->next = NULL` before the thread is queued. -/
theorem clearNext (h : Rep s a) (hal : t ∈ a.alive) (ht : ∀ p, t ∉ a.queue p) :
    ∃ s', s.writeNext t 0 = .ok s' ∧ Rep s' a ∧ s'.next t = 0 :=
  ⟨_, h.writeNext hal 0, h.setNext ht 0, update_self ..⟩

theorem modify_next (h : Rep s a) (ht : t ∈ a.alive) (f : Thread → Thread) :
    ∃ s', s.modify t f = .ok s' ∧ Rep s' (a.modify t f) ∧ s'.next = s.next :=
  ⟨_, h.modify_eq ht f, h.setThread t f, rfl⟩

/-- `t` becomes the last thread of queue `p`. -/
theorem push (h : Rep s a) (hal : t ∈ a.alive) (ht : ∀ p, t ∉ a.queue p) (hnext : s.next t = 0)
    (hc : s'.toCommon = s.toCommon)
    (hq : (a.queue p = [] ∧ s'.next = s.next ∧ s'.head = update s.head p t) ∨
      ∃ ys l, a.queue p = ys ++ [l] ∧ s'.next = update s.next l t ∧ s'.head = s.head)
    (hlast : ∀ p', p' ≠ p → s'.last p' = s.last p') (hlastp : ∀ l ∈ s'.last p, l = t) :
    Rep s' (a.push p t) where
  common := hc.trans h.common
  queues := by
    have h0 : t ≠ 0 := fun h0 => h.nonnull (h0 ▸ hal)
    rcases hq with ⟨hnil, hn, hh⟩ | ⟨ys, l, hcat, hn, hh⟩
    · rw [hn, hh]
      exact h.queues.pushNil hnil ht h0 hnext
    · rw [hn, hh]
      exact h.queues.pushLast hcat ht h0 hnext
  last p' l hl x hx := by
    simp only [Plan.push, update_apply] at hx
    split_ifs at hx with hp
    · subst hp
      obtain rfl : t = x := by simpa using hx
      exact hlastp l hl
    · exact h.last p' l (hlast p' hp ▸ hl) x hx
  alive p' x hx := by
    simp only [Plan.push, update_apply] at hx
    split_ifs at hx with hp
    · rcases List.mem_append.mp hx with hx | hx
      · exact h.alive p x hx
      · rw [List.mem_singleton.mp hx]
        exact hal
    · exact h.alive p' x hx
  nonnull := h.nonnull
  lt := h.lt
  current := h.current
  idle := h.idle

/-- A thread that left its queue is in none. -/
theorem notMem_remove (h : Rep s a) (ht : t ∈ a.queue p) (p' : Place) :
    t ∉ (a.remove p t).queue p' := by
  simp only [Plan.remove, update_apply]
  split_ifs with hp
  · exact fun hm => (h.queues.nodup p).not_mem_erase hm
  · exact h.queues.notMem_others ht p' hp

theorem alive_remove (h : Rep s a) (p' : Place) {x : ℕ} (hx : x ∈ (a.remove p t).queue p') :
    x ∈ a.alive := by
  simp only [Plan.remove, update_apply] at hx
  split_ifs at hx
  · exact h.alive p x (List.mem_of_mem_erase hx)
  · exact h.alive p' x hx

/-- The first thread leaves queue `p`. -/
theorem pop {ts : List ℕ} (h : Rep s a) (s' : SchedState) (hq : a.queue p = t :: ts)
    (hc : s'.toCommon = s.toCommon)
    (hn : s'.next = s.next) (hh : s'.head = update s.head p (s.next t)) (hlast : s'.last = s.last) :
    Rep s' (a.remove p t) where
  common := hc.trans h.common
  queues := by
    rw [hn, hh, Plan.remove, hq, List.erase_cons_head]
    exact h.queues.pop hq
  last p' l hl x hx := by
    simp only [Plan.remove, update_apply] at hx
    split_ifs at hx with hp
    · subst hp
      refine h.last p' l (hlast ▸ hl) x ?_
      rw [hq, List.erase_cons_head] at hx
      rw [hq]
      cases ts with
      | nil => simp at hx
      | cons y ts => simpa [List.getLast?_cons] using hx
    · exact h.last p' l (hlast ▸ hl) x hx
  alive p' x hx := h.alive_remove p' hx
  nonnull := h.nonnull
  lt := h.lt
  current := h.current
  idle := h.idle

/-- A thread behind another leaves a queue that has no tail pointer. -/
theorem unlink {l : ℕ} {ys zs : List ℕ} (h : Rep s a) (hq : a.queue p = ys ++ l :: t :: zs)
    (hp : s.last p = none) :
    Rep { s with next := update s.next l (s.next t) } (a.remove p t) where
  common := h.common
  queues := by
    have hnd := h.queues.nodup p
    rw [hq, List.nodup_append] at hnd
    have hys : t ∉ ys := fun ht => hnd.2.2 t ht t (by simp) rfl
    have htl : l ≠ t := fun he => (List.nodup_cons.mp hnd.2.1).1 (by simp [he])
    have herase : (a.queue p).erase t = ys ++ l :: zs := by
      rw [hq, List.erase_append_right _ hys, List.erase_cons_tail (by simpa using htl),
        List.erase_cons_head]
    rw [Plan.remove, herase]
    exact h.queues.unlink hq
  last p' m hm x hx := by
    simp only [Plan.remove, update_apply] at hx
    split_ifs at hx with hp'
    · subst hp'
      have : s.last p' = some m := hm
      rw [hp] at this
      cases this
    · exact h.last p' m hm x hx
  alive p' x hx := h.alive_remove p' hx
  nonnull := h.nonnull
  lt := h.lt
  current := h.current
  idle := h.idle

end Rep

end KallarOS.Sched
