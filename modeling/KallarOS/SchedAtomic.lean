import KallarOS.SchedFlags

namespace KallarOS.Sched
open Function Relation

/-- `yield` past its first test: a real yield. -/
def realYield (s : SchedState) : Outcome SchedState := do
  let s ← requeue s
  let (nextThread, s) ← dequeueThread s
  dispatch s s.currentThread (if nextThread = 0 then s.idleThread else nextThread)

theorem yield_of_zero {s : SchedState} (h : s.postponeSwitchesCounter = 0) :
    yield s = realYield s := if_neg (by omega)

theorem yield_of_pos {s : SchedState} (h : 0 < s.postponeSwitchesCounter) :
    yield s = .ok { s with postponedYieldFlag := 1 } := if_pos h

theorem inc8_of_lt {k : ℕ} (h : k < 255) : inc8 k = k + 1 := Nat.mod_eq_of_lt (by omega)

theorem dec8_succ {k : ℕ} (h : k < 255) : dec8 (k + 1) = k := by
  rw [dec8]
  omega

section Nesting

inductive Lockage where
  | scheduler
  | atomic
deriving DecidableEq

/-- What a thread may call between its first lock and its last unlock. -/
inductive Call where
  | lockScheduler
  | unlockScheduler
  | lockAtomic
  | unlockAtomic
  | yield

/-- A thread inside nested sections: `opened` are its open locks, innermost first,
`requested` counts the yields since the outermost atomic section was entered, and
`switched` says that the CPU has gone to another thread. -/
structure Nest where
  state : SchedState
  opened : List Lockage
  requested : ℕ
  switched : Bool

namespace Nest

/-- `unlock_atomic` in the thread that called it: when its `yield` goes to another
thread the rest of the call is left for later. -/
def unlockAtomic (n : Nest) : Outcome Nest := do
  let s ← leaveAtomic n.state
  let requested := if .atomic ∈ n.opened.tail then n.requested else 0
  if s.currentThread ≠ n.state.currentThread then
    return { n with state := s, requested := requested, switched := true }
  else do
    let s ← unlockScheduler s
    return { n with state := s, requested := requested, opened := n.opened.tail }

def exec (n : Nest) : Call → Outcome Nest
  | .lockScheduler => do
    let s ← lockScheduler n.state
    return { n with state := s, opened := .scheduler :: n.opened }
  | .unlockScheduler => do
    let s ← unlockScheduler n.state
    return { n with state := s, opened := n.opened.tail }
  | .lockAtomic => do
    let s ← lockAtomic n.state
    return { n with state := s, opened := .atomic :: n.opened }
  | .unlockAtomic => n.unlockAtomic
  | .yield => do
    let s ← yield n.state
    return { n with
      state := s
      requested := if .atomic ∈ n.opened then n.requested + 1 else n.requested
      switched := s.currentThread ≠ n.state.currentThread }

/-- Proper nesting to a depth of at most 255, by the thread that still has the CPU. -/
structure Fits (n : Nest) (c : Call) : Prop where
  here : n.switched = false
  room : c = .lockScheduler ∨ c = .lockAtomic → n.opened.length < 255
  scheduler : c = .unlockScheduler → n.opened.head? = some .scheduler
  atomic : c = .unlockAtomic → n.opened.head? = some .atomic
  inside : c = .yield → n.opened ≠ []

def Step (n n' : Nest) : Prop := ∃ c, n.Fits c ∧ n.exec c = .ok n'

/-- Depth 0 in state `s`. -/
def start (s : SchedState) : Nest := ⟨s, [], 0, false⟩

end Nest

end Nesting

namespace Plan

variable {a b : Plan} {d k r : ℕ} {e : BitVec 32}

/-- `d` locks are open, `k` of them atomic, with `r` yields pending, and `e` was EFLAGS
before the first. -/
structure Held (a : Plan) (d k r : ℕ) (e : BitVec 32) : Prop where
  placed : a.Placed
  nonnull : 0 ∉ a.alive
  irq : a.irqDisableCounter = d
  depth : d ≤ 255
  postpone : a.postponeSwitchesCounter = k
  within : k ≤ d
  flag : a.postponedYieldFlag = if 0 < r then 1 else 0
  pending : 0 < r → 0 < k
  masked : 0 < d → interruptFlag a.eflags = false ∧
    (a.tcb a.currentThread).savedInterruptState = e
  outside : d = 0 → a.eflags = e

namespace Held

theorem quiet (h : a.Held d 0 r e) : r = 0 := by
  have := h.pending
  omega

theorem congr (h : a.Held d k r e) (hc : b = { a with
      postponeSwitchesCounter := b.postponeSwitchesCounter
      postponedYieldFlag := b.postponedYieldFlag }) {k' r' : ℕ}
    (hk : b.postponeSwitchesCounter = k') (hd : k' ≤ d)
    (hf : b.postponedYieldFlag = if 0 < r' then 1 else 0) (hr : 0 < r' → 0 < k') :
    b.Held d k' r' e where
  placed := by
    rw [hc]
    exact h.placed.congr rfl rfl rfl rfl rfl rfl fun _ => ⟨rfl, rfl⟩
  nonnull := by
    rw [hc]
    exact h.nonnull
  irq := by
    rw [hc]
    exact h.irq
  depth := h.depth
  postpone := hk
  within := hd
  flag := hf
  pending := hr
  masked := by
    rw [hc]
    exact h.masked
  outside := by
    rw [hc]
    exact h.outside

theorem lockScheduler (h : a.Held d k r e) (hd : d < 255) : a.lockScheduler.Held (d + 1) k r e where
  placed := h.placed.lockScheduler
  nonnull := h.nonnull
  irq := by
    change inc8 a.irqDisableCounter = d + 1
    rw [h.irq, inc8_of_lt hd]
  depth := by omega
  postpone := h.postpone
  within := h.within.trans (Nat.le_succ d)
  flag := h.flag
  pending := h.pending
  masked _ := by
    refine ⟨interruptFlag_cli _, ?_⟩
    change ((if a.irqDisableCounter = 0 then _ else a.tcb) a.currentThread).savedInterruptState = e
    -- only the first lock saves EFLAGS, and what it saves is `e`
    by_cases h0 : d = 0
    · rw [if_pos (h.irq.trans h0), update_self]
      exact h.outside h0
    · rw [if_neg (h.irq ▸ h0)]
      exact (h.masked (Nat.pos_of_ne_zero h0)).2
  outside h0 := by omega

theorem lockAtomic (h : a.Held d k r e) (hd : d < 255) : a.lockAtomic.Held (d + 1) (k + 1) r e := by
  have hk := h.within
  refine (h.lockScheduler hd).congr rfl ?_ (by omega) h.flag (fun _ => by omega)
  change inc8 a.postponeSwitchesCounter = k + 1
  rw [h.postpone, inc8_of_lt (by omega)]

theorem unlockScheduler (h : a.Held (d + 1) k r e) (hk : k ≤ d) : a.unlockScheduler.Held d k r e := by
  have hdepth := h.depth
  obtain ⟨hmask, hsaved⟩ := h.masked (Nat.succ_pos d)
  have hirq : a.irqDisableCounter ≠ 0 := by
    rw [h.irq]
    omega
  have hdec : dec8 a.irqDisableCounter = d := by rw [h.irq, dec8_succ (by omega)]
  refine ⟨h.placed.unlockScheduler, h.nonnull, ?_, by omega, h.postpone, hk, h.flag, h.pending, ?_, ?_⟩
  · change (if a.irqDisableCounter = 0 then _ else dec8 a.irqDisableCounter) = d
    rw [if_neg hirq, hdec]
  · intro hd
    refine ⟨?_, hsaved⟩
    change interruptFlag (if _ ∧ dec8 a.irqDisableCounter = 0 then _ else a.eflags) = false
    rw [if_neg fun hc => absurd (hdec.symm.trans hc.2) (by omega)]
    exact hmask
  · intro hd
    change (if _ ∧ dec8 a.irqDisableCounter = 0 then _ else a.eflags) = e
    rw [if_pos ⟨hirq, hdec.trans hd⟩]
    exact hsaved

/-- A yield in an atomic section is noted. -/
theorem request (h : a.Held d k r e) (hk : 0 < k) :
    Held { a with postponedYieldFlag := 1 } d k (r + 1) e :=
  h.congr rfl h.postpone h.within (if_pos (Nat.succ_pos r)).symm fun _ => hk

/-- A real yield that comes back to the same thread changes nothing of the sections. -/
theorem reschedule (h : a.Held d 0 r e) (hcur : a.reschedule.currentThread = a.currentThread) :
    a.reschedule.Held d 0 r e := by
  have hplaced := h.placed.toSettled.reschedule h.nonnull fun hr => absurd h.placed.running hr
  have hflags := a.handover_reschedule
  refine ⟨hplaced, ?_, ?_, h.depth, ?_, h.within, ?_, h.pending, fun hd => ?_, fun hd => ?_⟩
  · rw [(sameObjects_reschedule a).alive]
    exact h.nonnull
  · rw [reschedule_eq]
    exact h.irq
  · rw [reschedule_eq]
    exact h.postpone
  · rw [reschedule_eq]
    exact h.flag
  · rw [hflags.stay hcur, hcur, hflags.saved]
    exact h.masked hd
  · rw [hflags.stay hcur]
    exact h.outside hd

/-- The end of an atomic section, up to the yields it owes. -/
theorem lower (h : a.Held d (k + 1) r e) (hk : 0 < r → 0 < k) :
    Held { a with postponeSwitchesCounter := k } d k r e :=
  h.congr rfl rfl ((Nat.le_succ k).trans h.within) h.flag hk

theorem clear (h : a.Held d 1 r e) :
    Held { a with postponeSwitchesCounter := 0, postponedYieldFlag := 0 } d 0 0 e :=
  h.congr rfl rfl (Nat.zero_le d) rfl (by omega)

end Held

end Plan

section Leaving

variable {s : SchedState} {k : ℕ}

theorem leaveAtomic_inner (hs : s.postponeSwitchesCounter = k + 1) (hk : k < 255) (h0 : k ≠ 0) :
    leaveAtomic s = .ok { s with postponeSwitchesCounter := k } := by
  have hdec : dec8 s.postponeSwitchesCounter = k := by rw [hs, dec8_succ hk]
  have hne : ¬ (dec8 s.postponeSwitchesCounter = 0 ∧ s.postponedYieldFlag = 1) := fun hc =>
    h0 (hdec.symm.trans hc.1)
  rw [← hdec]
  exact if_neg hne

theorem leaveAtomic_outer (hs : s.postponeSwitchesCounter = 1) (hf : s.postponedYieldFlag = 0) :
    leaveAtomic s = .ok { s with postponeSwitchesCounter := 0 } := by
  have hdec : dec8 s.postponeSwitchesCounter = 0 := by rw [hs, dec8_succ (by omega)]
  have hne : ¬ (dec8 s.postponeSwitchesCounter = 0 ∧ s.postponedYieldFlag = 1) := fun hc => by
    have := hc.2
    omega
  rw [← hdec]
  exact if_neg hne

theorem leaveAtomic_owed (hs : s.postponeSwitchesCounter = 1) (hf : s.postponedYieldFlag = 1) :
    leaveAtomic s = realYield { s with postponeSwitchesCounter := 0, postponedYieldFlag := 0 } := by
  have hdec : dec8 s.postponeSwitchesCounter = 0 := by rw [hs, dec8_succ (by omega)]
  have hif : dec8 s.postponeSwitchesCounter = 0 ∧ s.postponedYieldFlag = 1 := ⟨hdec, hf⟩
  have hyield := yield_of_zero (s := { s with
    postponeSwitchesCounter := dec8 s.postponeSwitchesCounter, postponedYieldFlag := 0 }) hdec
  have hleave : leaveAtomic s = yield { s with
      postponeSwitchesCounter := dec8 s.postponeSwitchesCounter, postponedYieldFlag := 0 } :=
    if_pos hif
  rw [hleave, hyield, hdec]

end Leaving

namespace Nest

variable {n n' : Nest} {a b : Plan} {e : BitVec 32} {c : Call} {s : SchedState}
  {rest : List Lockage}

/-- The thread still has the CPU, and the counters, the flag and EFLAGS are those of
its open locks. -/
structure Inv (n : Nest) (a : Plan) (e : BitVec 32) : Prop where
  here : n.switched = false
  rep : Rep n.state a
  held : a.Held n.opened.length (n.opened.count .atomic) n.requested e

/-- Another thread has the CPU and owes no yield. -/
structure Gone (n : Nest) : Prop where
  away : n.switched = true
  flag : n.state.postponedYieldFlag = 0

namespace Inv

theorem postpone_eq (h : n.Inv a e) : n.state.postponeSwitchesCounter = n.opened.count .atomic := by
  rw [h.rep.common]
  exact h.held.postpone

theorem flag_eq (h : n.Inv a e) : n.state.postponedYieldFlag = if 0 < n.requested then 1 else 0 := by
  rw [h.rep.common]
  exact h.held.flag

theorem lockScheduler (h : n.Inv a e) (hd : n.opened.length < 255) :
    ∃ n', n.exec .lockScheduler = .ok n' ∧ n'.Inv a.lockScheduler e := by
  obtain ⟨s, hs, hrep⟩ := h.rep.lockScheduler
  refine ⟨{ n with state := s, opened := .scheduler :: n.opened }, ?_, h.here, hrep, ?_⟩
  · rw [Nest.exec, hs]
    rfl
  · rw [List.length_cons, List.count_cons_of_ne (by decide)]
    exact h.held.lockScheduler hd

theorem lockAtomic (h : n.Inv a e) (hd : n.opened.length < 255) :
    ∃ n', n.exec .lockAtomic = .ok n' ∧ n'.Inv a.lockAtomic e := by
  obtain ⟨s, hs, hrep⟩ := h.rep.lockAtomic
  refine ⟨{ n with state := s, opened := .atomic :: n.opened }, ?_, h.here, hrep, ?_⟩
  · rw [Nest.exec, hs]
    rfl
  · rw [List.length_cons, List.count_cons_self]
    exact h.held.lockAtomic hd

theorem unlockScheduler (h : n.Inv a e) (ho : n.opened = .scheduler :: rest) :
    ∃ n', n.exec .unlockScheduler = .ok n' ∧ n'.Inv a.unlockScheduler e := by
  obtain ⟨s, hs, hrep⟩ := h.rep.unlockScheduler
  have hheld := h.held
  rw [ho, List.length_cons, List.count_cons_of_ne (by decide)] at hheld
  refine ⟨{ n with state := s, opened := n.opened.tail }, ?_, h.here, hrep, ?_⟩
  · rw [Nest.exec, hs]
    rfl
  · rw [ho, List.tail_cons]
    exact hheld.unlockScheduler List.count_le_length

/-- A yield with an atomic section open. -/
theorem request (h : n.Inv a e) (hin : .atomic ∈ n.opened) :
    ∃ n', n.exec .yield = .ok n' ∧ n'.Inv { a with postponedYieldFlag := 1 } e := by
  have hpos : 0 < n.state.postponeSwitchesCounter := by
    rw [h.postpone_eq]
    exact List.count_pos_iff.mpr hin
  have hrep : Rep { n.state with postponedYieldFlag := 1 } { a with postponedYieldFlag := 1 } :=
    h.rep.mapCommon (fun c => { c with postponedYieldFlag := 1 }) (fun _ => rfl) (fun _ => rfl)
      fun _ => rfl
  refine ⟨⟨{ n.state with postponedYieldFlag := 1 }, n.opened, n.requested + 1, false⟩, ?_, rfl, hrep,
    h.held.request (List.count_pos_iff.mpr hin)⟩
  rw [Nest.exec, yield_of_pos hpos, if_pos hin]
  simp

/-- The real yield of a state without an atomic section. -/
theorem pass (hrep : Rep s b) (hb : b.Held n.opened.length 0 0 e) :
    ∃ s', realYield s = .ok s' ∧ Rep s' b.reschedule ∧ s'.postponedYieldFlag = 0 := by
  obtain ⟨s', hs', hrep'⟩ := hrep.reschedule hb.placed.runs.yieldable
  refine ⟨s', hs', hrep', ?_⟩
  rw [hrep'.common, Plan.reschedule_eq]
  exact hb.flag

theorem yield (h : n.Inv a e) (hout : .atomic ∉ n.opened) :
    ∃ n', n.exec .yield = .ok n' ∧ (n'.Inv a.reschedule e ∨ n'.Gone) := by
  have h0 : n.opened.count .atomic = 0 := List.count_eq_zero.mpr hout
  have hheld := h.held
  rw [h0] at hheld
  have hr := hheld.quiet
  rw [hr] at hheld
  obtain ⟨s', hs', hrep', hflag⟩ := pass h.rep hheld
  refine ⟨⟨s', n.opened, n.requested, s'.currentThread ≠ n.state.currentThread⟩, ?_, ?_⟩
  · rw [Nest.exec, yield_of_zero (h.postpone_eq.trans h0), hs', if_neg hout]
    rfl
  · by_cases hcur : s'.currentThread = n.state.currentThread
    · refine .inl ⟨by simp [hcur], hrep', ?_⟩
      rw [h0, hr]
      rw [hrep'.current_eq, h.rep.current_eq] at hcur
      exact hheld.reschedule hcur
    · exact .inr ⟨by simp [hcur], hflag⟩

/-- `unlock_atomic` after a `leaveAtomic` that stayed in the thread. -/
theorem finish (h : n.Inv a e) (hs : leaveAtomic n.state = .ok s) (hrep : Rep s b)
    (hcur : s.currentThread = n.state.currentThread) (ho : n.opened = .atomic :: rest)
    (hb : b.Held (rest.length + 1) (rest.count .atomic)
      (if .atomic ∈ rest then n.requested else 0) e) :
    ∃ n', n.exec .unlockAtomic = .ok n' ∧ n'.Inv b.unlockScheduler e := by
  obtain ⟨s', hs', hrep'⟩ := hrep.unlockScheduler
  refine ⟨⟨s', rest, if .atomic ∈ rest then n.requested else 0, n.switched⟩, ?_, h.here, hrep',
    hb.unlockScheduler List.count_le_length⟩
  rw [Nest.exec, Nest.unlockAtomic, hs, Outcome.ok_bind, if_neg (by simpa using hcur), hs', ho]
  rfl

/-- The end of an inner atomic section. -/
theorem unlockInner (h : n.Inv a e) (ho : n.opened = .atomic :: rest) (hin : .atomic ∈ rest) :
    ∃ n', n.exec .unlockAtomic = .ok n' ∧
      n'.Inv (Plan.unlockScheduler { a with postponeSwitchesCounter := rest.count .atomic }) e := by
  have hheld := h.held
  have hp := h.postpone_eq
  have hpos : 0 < rest.count .atomic := List.count_pos_iff.mpr hin
  rw [ho, List.count_cons_self] at hp hheld
  have hlen := hheld.depth
  have hle : rest.count .atomic ≤ rest.length := List.count_le_length
  rw [List.length_cons] at hlen hheld
  have hrep := h.rep.mapCommon (fun c => { c with postponeSwitchesCounter := rest.count .atomic })
    (fun _ => rfl) (fun _ => rfl) fun _ => rfl
  refine h.finish (leaveAtomic_inner hp (by omega) hpos.ne') hrep rfl ho ?_
  rw [if_pos hin]
  exact hheld.lower fun _ => hpos

/-- The end of the outermost atomic section. -/
theorem unlockOuter (h : n.Inv a e) (ho : n.opened = .atomic :: rest) (hout : .atomic ∉ rest) :
    ∃ n', n.exec .unlockAtomic = .ok n' ∧ ((∃ b, n'.Inv b e) ∨ n'.Gone) := by
  have hheld := h.held
  have hp := h.postpone_eq
  have hf := h.flag_eq
  have h0 : rest.count .atomic = 0 := List.count_eq_zero.mpr hout
  rw [ho, List.count_cons_self, h0] at hp hheld
  have hclear := hheld.clear
  rw [List.length_cons] at hheld hclear
  by_cases hr : 0 < n.requested
  -- a yield is owed: the thread may lose the CPU before its `unlock_scheduler`
  · have hrep := h.rep.mapCommon (fun c => { c with
      postponeSwitchesCounter := 0, postponedYieldFlag := 0 }) (fun _ => rfl) (fun _ => rfl)
      fun _ => rfl
    rw [if_pos hr] at hf
    obtain ⟨s', hs', hrep', hflag⟩ := pass (n := n) hrep (by rw [ho]; exact hclear)
    have hleave := (leaveAtomic_owed hp hf).trans hs'
    by_cases hcur : s'.currentThread = n.state.currentThread
    · have hsame : (Plan.reschedule { a with
          postponeSwitchesCounter := 0, postponedYieldFlag := 0 }).currentThread =
          a.currentThread := by
        rw [← hrep'.current_eq, ← h.rep.current_eq]
        exact hcur
      obtain ⟨n', hn', hinv⟩ := h.finish hleave hrep' hcur ho (by
        rw [h0, if_neg hout]
        exact hclear.reschedule hsame)
      exact ⟨n', hn', .inl ⟨_, hinv⟩⟩
    · refine ⟨⟨s', n.opened, 0, true⟩, ?_, .inr ⟨rfl, hflag⟩⟩
      rw [Nest.exec, Nest.unlockAtomic, hleave, Outcome.ok_bind, if_pos hcur, ho, List.tail_cons,
        if_neg hout]
      rfl
  · have hr0 : n.requested = 0 := by omega
    rw [if_neg hr] at hf
    have hrep := h.rep.mapCommon (fun c => { c with postponeSwitchesCounter := 0 }) (fun _ => rfl)
      (fun _ => rfl) fun _ => rfl
    rw [hr0] at hheld
    obtain ⟨n', hn', hinv⟩ := h.finish (leaveAtomic_outer hp hf) hrep rfl ho (by
      rw [h0, if_neg hout]
      exact hheld.lower (by omega))
    exact ⟨n', hn', .inl ⟨_, hinv⟩⟩

theorem exec (h : n.Inv a e) (hc : n.Fits c) :
    ∃ n', n.exec c = .ok n' ∧ ((∃ b, n'.Inv b e) ∨ n'.Gone) := by
  have keep : ∀ {b}, (∃ n', n.exec c = .ok n' ∧ n'.Inv b e) →
      ∃ n', n.exec c = .ok n' ∧ ((∃ b, n'.Inv b e) ∨ n'.Gone) := by
    rintro b ⟨n', hn', hinv⟩
    exact ⟨n', hn', .inl ⟨b, hinv⟩⟩
  cases c with
  | lockScheduler => exact keep (h.lockScheduler (hc.room (.inl rfl)))
  | lockAtomic => exact keep (h.lockAtomic (hc.room (.inr rfl)))
  | unlockScheduler =>
    obtain ⟨rest, ho⟩ := List.head?_eq_some_iff.mp (hc.scheduler rfl)
    exact keep (h.unlockScheduler ho)
  | unlockAtomic =>
    obtain ⟨rest, ho⟩ := List.head?_eq_some_iff.mp (hc.atomic rfl)
    by_cases hin : .atomic ∈ rest
    · exact keep (h.unlockInner ho hin)
    · exact h.unlockOuter ho hin
  | yield =>
    by_cases hin : .atomic ∈ n.opened
    · exact keep (h.request hin)
    · obtain ⟨n', hn', hinv | hgone⟩ := h.yield hin
      · exact ⟨n', hn', .inl ⟨_, hinv⟩⟩
      · exact ⟨n', hn', .inr hgone⟩

end Inv

theorem run (h : n.Inv a e) (hr : ReflTransGen Step n n') : (∃ b, n'.Inv b e) ∨ n'.Gone := by
  induction hr with
  | refl => exact .inl ⟨a, h⟩
  | tail _ hstep ih =>
    obtain ⟨c, hc, hok⟩ := hstep
    rcases ih with ⟨b, hb⟩ | hgone
    · obtain ⟨n'', hn'', hinv⟩ := hb.exec hc
      cases hn''.symm.trans hok
      exact hinv
    -- a thread that lost the CPU makes no further call
    · exact absurd (hgone.away.symm.trans hc.here) (by simp)

section Results

/-- What holds at every point of a nesting that began with EFLAGS `e`. -/
structure Sound (n : Nest) (e : BitVec 32) : Prop where
  held : n.switched = false → n.opened ≠ [] → interruptFlag n.state.eflags = false ∧
    n.state.irqDisableCounter = n.opened.length
  postponed : n.switched = false → n.state.postponeSwitchesCounter = n.opened.count .atomic
  noted : 0 < n.state.postponeSwitchesCounter →
    Sched.yield n.state = .ok { n.state with postponedYieldFlag := 1 }
  outermost : ∀ rest, n.switched = false → n.opened = .atomic :: rest → .atomic ∉ rest →
    leaveAtomic n.state = if 0 < n.requested then
        realYield { n.state with postponeSwitchesCounter := 0, postponedYieldFlag := 0 }
      else .ok { n.state with postponeSwitchesCounter := 0 }
  inner : ∀ rest, n.switched = false → n.opened = .atomic :: rest → .atomic ∈ rest →
    leaveAtomic n.state = .ok { n.state with postponeSwitchesCounter := rest.count .atomic }
  flag : n.state.postponedYieldFlag = 1 → 0 < n.state.postponeSwitchesCounter
  closed : n.switched = false → n.opened = [] → n.state.irqDisableCounter = 0 ∧
    n.state.postponeSwitchesCounter = 0 ∧ n.state.eflags = e

theorem Inv.sound (h : n.Inv a e) : n.Sound e where
  held _ hne := by
    have hpos := List.length_pos_iff.mpr hne
    rw [h.rep.common]
    exact ⟨(h.held.masked hpos).1, h.held.irq⟩
  postponed _ := h.postpone_eq
  noted := yield_of_pos
  outermost rest _ ho hout := by
    have hp := h.postpone_eq
    have hf := h.flag_eq
    rw [ho, List.count_cons_self, List.count_eq_zero.mpr hout] at hp
    split_ifs at hf ⊢ with hr
    · exact leaveAtomic_owed hp hf
    · exact leaveAtomic_outer hp hf
  inner rest _ ho hin := by
    have hp := h.postpone_eq
    have hlen := h.held.depth
    have hle : rest.count .atomic ≤ rest.length := List.count_le_length
    rw [ho, List.count_cons_self] at hp
    rw [ho, List.length_cons] at hlen
    exact leaveAtomic_inner hp (by omega) (List.count_pos_iff.mpr hin).ne'
  flag hf := by
    rw [h.flag_eq] at hf
    rw [h.postpone_eq]
    refine h.held.pending ?_
    by_contra hr
    rw [if_neg hr] at hf
    cases hf
  closed _ ho := by
    have hheld := h.held
    rw [ho, List.length_nil, List.count_nil] at hheld
    rw [h.rep.common]
    exact ⟨hheld.irq, hheld.postpone, hheld.outside rfl⟩

theorem Gone.sound (h : n.Gone) : n.Sound e := by
  have hne : n.switched ≠ false := by simp [h.away]
  have hflag : n.state.postponedYieldFlag ≠ 1 := by simp [h.flag]
  exact ⟨fun hs => absurd hs hne, fun hs => absurd hs hne, yield_of_pos,
    fun _ hs => absurd hs hne, fun _ hs => absurd hs hne, fun hf => absurd hf hflag,
    fun hs => absurd hs hne⟩

theorem start_inv (h : Steady s a) (e : BitVec 32) :
    (start { s with eflags := e }).Inv { a with eflags := e } e where
  here := rfl
  rep := rep_withFlags h.rep e
  held := by
    have hrest := resting_withFlags h.resting e
    exact ⟨hrest.toPlaced, hrest.nonnull, hrest.irq, Nat.zero_le _, hrest.postpone, le_refl _,
      hrest.flag, fun hr => absurd hr (lt_irrefl 0), fun hd => absurd hd (lt_irrefl 0), fun _ => rfl⟩

/-- Every properly nested sequence of lock, unlock and yield calls of one thread, from
any reachable state at depth 0 and with any EFLAGS: every call returns, and the
counters, the flag and the interrupt flag are in step with the open locks. -/
theorem atomic_sections {root idle cleaner : ℕ} (hb : Boot s) (hm : Blocks root idle cleaner) :
    ∃ s₀, initializeMultitasking s root idle cleaner = .ok s₀ ∧
      ∀ s' e n, ReflTransGen Sched.Step s₀ s' →
        ReflTransGen Step (start { s' with eflags := e }) n →
        n.Sound e ∧ ∀ c, n.Fits c → ∃ n', n.exec c = .ok n' := by
  obtain ⟨s₀, hs₀, h₀⟩ := initializeMultitasking_steady hb hm
  refine ⟨s₀, hs₀, fun s' e n hr hn => ?_⟩
  obtain ⟨a, h⟩ := h₀.run hr
  rcases run (start_inv h e) hn with ⟨b, hb⟩ | hgone
  · refine ⟨hb.sound, fun c hc => ?_⟩
    obtain ⟨n', hn', -⟩ := hb.exec hc
    exact ⟨n', hn'⟩
  · exact ⟨hgone.sound, fun c hc => absurd (hgone.away.symm.trans hc.here) (by simp)⟩

/-- Two atomic sections, a yield in the inner one, and the inner one is left: the outer
one still owes the yield. -/
theorem atomic_sections_sample :
    ∃ s₀ n, initializeMultitasking zeroState 16 32 48 = .ok s₀ ∧
      ReflTransGen Step (start { s₀ with eflags := 0x202#32 }) n ∧ n.opened = [.atomic] ∧
      n.requested = 1 ∧ interruptFlag n.state.eflags = false ∧ n.state.irqDisableCounter = 1 ∧
      leaveAtomic n.state =
        realYield { n.state with postponeSwitchesCounter := 0, postponedYieldFlag := 0 } := by
  obtain ⟨s₀, hs₀, hrun⟩ := atomic_sections zeroState_boot sampleBlocks
  obtain ⟨s, hs, h₀⟩ := initializeMultitasking_steady zeroState_boot sampleBlocks
  cases hs.symm.trans hs₀
  obtain ⟨s₁, hs₁, h₁⟩ := (start_inv h₀ 0x202#32).rep.lockAtomic
  obtain ⟨s₂, hs₂, h₂⟩ := h₁.lockAtomic
  have hdepth : s₂.postponeSwitchesCounter = 2 := by
    rw [h₂.common]
    decide
  have h₃ := h₂.mapCommon (fun c => { c with postponeSwitchesCounter := 1, postponedYieldFlag := 1 })
    (fun _ => rfl) (fun _ => rfl) fun _ => rfl
  obtain ⟨s₃, hs₃, -⟩ := h₃.unlockScheduler
  have henter : ReflTransGen Step (start { s₀ with eflags := 0x202#32 })
      ⟨s₂, [.atomic, .atomic], 0, false⟩ :=
    .head ⟨.lockAtomic, by constructor <;> simp [start], by rw [Nest.exec, hs₁]; rfl⟩
      (.single ⟨.lockAtomic, by constructor <;> simp [start], by rw [Nest.exec, hs₂]; rfl⟩)
  have hyield : Step ⟨s₂, [.atomic, .atomic], 0, false⟩
      ⟨{ s₂ with postponedYieldFlag := 1 }, [.atomic, .atomic], 1, false⟩ := by
    refine ⟨.yield, by constructor <;> simp, ?_⟩
    rw [Nest.exec, yield_of_pos (by rw [hdepth]; decide)]
    simp
  have hleave : Step ⟨{ s₂ with postponedYieldFlag := 1 }, [.atomic, .atomic], 1, false⟩
      ⟨s₃, [.atomic], 1, false⟩ := by
    refine ⟨.unlockAtomic, by constructor <;> simp, ?_⟩
    have howed := leaveAtomic_inner (s := { s₂ with postponedYieldFlag := 1 }) (k := 1) hdepth
      (by decide) one_ne_zero
    rw [Nest.exec, Nest.unlockAtomic, howed]
    simp [hs₃]
  have hr := (henter.tail hyield).tail hleave
  have hsound := (hrun s₀ _ _ .refl hr).1
  obtain ⟨hmasked, hirq⟩ := hsound.held rfl (by simp)
  exact ⟨s₀, _, hs₀, hr, rfl, rfl, hmasked, hirq, hsound.outermost [] rfl rfl (by simp)⟩

end Results

end Nest

end KallarOS.Sched
