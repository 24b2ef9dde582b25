import KallarOS.SchedFlags

namespace KallarOS.Sched
open Function Relation

/-- Where a thread stands with the scheduler's lock. A new thread that gets the CPU goes
through `unlock_scheduler` with interrupts on: `started` before the counter is taken
down, then `decremented`, then `loaded` with the word that `popfl` will set. `inCall` and
`inTick` are in front of the `unlock_scheduler` that ends a call or a tick; `inTick` keeps
what the interrupt broke off and the EFLAGS that `iretd` will restore. -/
inductive Point where
  | fresh
  | outside
  | started
  | decremented
  | loaded (eflags : BitVec 32)
  | inCall (entry : Bool)
  | inTick (before : Point) (eflags : BitVec 32)
  | dead

def Point.resume : Point → Point
  | fresh => started
  | p => p

/-- The scheduler with the threads' points, the lock depth at every context switch, and
for every return of a call the interrupt flag at its entry and after it. -/
structure Machine where
  sched : SchedState
  point : ℕ → Point
  switches : List ℕ
  returns : List (Bool × Bool)

inductive Act where
  | call (e : Event)
  | setFlags (eflags : BitVec 32)
  | finish
  | tick
  | iret
  | start

/-- The calls that end with `unlock_scheduler`, up to it. -/
def Event.entry : Event → Option (SchedState → Outcome SchedState)
  | .threadSleep requestedTime => some fun s => enterSleep s requestedTime
  | .threadExit => some enterExit
  | .acquireMutex mutex => some fun s => enterAcquireMutex s mutex
  | .releaseMutex mutex => some fun s => enterReleaseMutex s mutex
  | .acquireSemaphore semaphore => some fun s => enterAcquireSemaphore s semaphore
  | .releaseSemaphore semaphore => some fun s => enterReleaseSemaphore s semaphore
  | _ => none

namespace Machine

variable (m : Machine)

def here : Point := m.point m.sched.currentThread

/-- The current thread is left at `p`, and the current thread of `s` goes on. -/
def suspend (s : SchedState) (p : Point) : Machine :=
  if s.currentThread = m.sched.currentThread then
    { m with sched := s, point := update m.point m.sched.currentThread p }
  else
    { m with
      sched := s
      point := update (update m.point m.sched.currentThread p) s.currentThread
        (m.point s.currentThread).resume
      switches := s.irqDisableCounter :: m.switches }

def goTo (s : SchedState) (p : Point) : Machine :=
  { m with sched := s, point := update m.point m.sched.currentThread p }

/-- A call of the current thread. -/
def call (e : Event) : Outcome Machine :=
  match e.entry with
  | some enter => do
    let s ← enter m.sched
    return m.suspend s
      (if e = .threadExit then .dead else .inCall (interruptFlag m.sched.eflags))
  | none => do
    let s ← Sched.exec m.sched e
    match e with
    | .createKernelThread t => return { m with sched := s, point := update m.point t .fresh }
    | _ => return { m with sched := s }

/-- The timer interrupt: the gate pushes EFLAGS and clears the interrupt flag. -/
def tick : Outcome Machine := do
  let (yielded, s) ← enterTick { m.sched with
    eflags := cli m.sched.eflags
    systemTicks := (m.sched.systemTicks + 1) % 2 ^ 64 }
  if yielded then return m.suspend s (.inTick m.here m.sched.eflags)
  else return { m with sched := { s with eflags := m.sched.eflags } }

/-- One step of the first `unlock_scheduler` of a new thread. -/
def start : Machine :=
  match m.here with
  | .started =>
    if m.sched.irqDisableCounter = 0 then m.goTo m.sched .outside
    else
      let depth := dec8 m.sched.irqDisableCounter
      m.goTo { m.sched with irqDisableCounter := depth } (if depth = 0 then .decremented else .outside)
  | .decremented =>
    m.goTo m.sched (.loaded (m.sched.tcb m.sched.currentThread).savedInterruptState)
  | .loaded eflags => m.goTo { m.sched with eflags := eflags } .outside
  | _ => m

def exec : Act → Outcome Machine
  | .call e => m.call e
  | .setFlags eflags => .ok { m with sched := { m.sched with eflags := eflags } }
  | .finish => do
    let s ← unlockScheduler m.sched
    match m.here with
    | .inCall entry =>
      return { m.goTo s .outside with returns := (entry, interruptFlag s.eflags) :: m.returns }
    | _ => return m
  | .tick => m.tick
  | .iret => do
    let s ← unlockScheduler m.sched
    match m.here with
    | .inTick before eflags => return m.goTo { s with eflags := eflags } before
    | _ => return m
  | .start => .ok m.start

/-- Each thread goes on from where it stands; between the steps a tick may come whenever
the interrupt flag is set. -/
def Allowed : Act → Prop
  | .call e => m.here = .outside ∧ e ≠ .tick ∧ e.Allowed m.sched
  | .setFlags _ => m.here = .outside
  | .finish => ∃ entry, m.here = .inCall entry
  | .tick => interruptFlag m.sched.eflags = true
  | .iret => ∃ before eflags, m.here = .inTick before eflags
  | .start => m.here = .started ∨ m.here = .decremented ∨ ∃ eflags, m.here = .loaded eflags

def Step (m m' : Machine) : Prop := ∃ x, m.Allowed x ∧ m.exec x = .ok m'

/-- No tick comes between a thread's first dispatch and the decrement of its first
`unlock_scheduler`. The calls that run unlocked are single steps. -/
def CalmStep (m m' : Machine) : Prop :=
  ∃ x, m.Allowed x ∧ (x = .tick → m.here ≠ .started) ∧ m.exec x = .ok m'

end Machine

section Entering

namespace Plan

variable {a : Plan} {e : Event} {f : SchedState → Outcome SchedState}

/-- The calls of `Event.entry` on lists. -/
def enter (a : Plan) : Event → Plan
  | .threadSleep requestedTime => a.enterSleep requestedTime
  | .threadExit => a.enterExit
  | .acquireMutex mutex => a.enterAcquireMutex mutex
  | .releaseMutex mutex => a.enterReleaseMutex mutex
  | .acquireSemaphore semaphore => a.enterAcquireSemaphore semaphore
  | .releaseSemaphore semaphore => a.enterReleaseSemaphore semaphore
  | e => a.step e

theorem step_eq_enter (hf : e.entry = some f) : a.step e = (a.enter e).unlockScheduler := by
  cases e <;> first | rfl | cases hf

theorem Resting.enter (h : a.Resting) (he : a.Allowed e) (hf : e.entry = some f) :
    (a.enter e).Leaving := by
  have hfits := he.fits
  cases e with
  | threadSleep d => exact h.enterSleep (he.busy (by simp)) d
  | threadExit => exact h.enterExit (he.busy (by simp))
  | acquireMutex m => exact h.enterAcquireMutex (he.busy (by simp)) hfits
  | releaseMutex m => exact h.enterReleaseMutex m
  | acquireSemaphore m => exact h.enterAcquireSemaphore (he.busy (by simp)) hfits
  | releaseSemaphore m => exact h.enterReleaseSemaphore m
  | _ => cases hf

theorem Resting.handover_enter (h : a.Resting) (hf : e.entry = some f) :
    Handover a.lockScheduler (a.enter e) := by
  have hplain : ∀ {b : Plan}, b.tcb = a.lockScheduler.tcb →
      b.currentThread = a.lockScheduler.currentThread → b.eflags = a.lockScheduler.eflags →
      Handover a.lockScheduler b := fun ht => (sameFlags_of_tcb ht).handover
  cases e with
  | threadSleep d =>
    rw [Plan.enter, enterSleep_eq h.toUnlocked]
    exact handover_blockOn fun _ => rfl
  | threadExit =>
    rw [Plan.enter, enterExit_eq h.toUnlocked]
    exact handover_blockOn fun _ => rfl
  | acquireMutex m =>
    rw [Plan.enter, enterAcquireMutex_eq h.toUnlocked]
    split_ifs
    · exact hplain rfl rfl rfl
    · exact handover_blockOn fun _ => rfl
  | acquireSemaphore m =>
    rw [Plan.enter, enterAcquireSemaphore_eq h.toUnlocked]
    split_ifs
    · exact hplain rfl rfl rfl
    · exact handover_blockOn fun _ => rfl
  | releaseMutex m =>
    rw [Plan.enter]
    cases hq : a.queue (.mutex m) with
    | nil =>
      rw [enterReleaseMutex_nil h.toUnlocked hq]
      exact hplain rfl rfl rfl
    | cons t ts =>
      rw [enterReleaseMutex_cons h.toUnlocked hq]
      have hsame : SameFlags a.lockScheduler { a.lockScheduler.promote (.mutex m) t with
          ownerThread := update a.ownerThread m t } :=
        sameFlags_promote.trans (sameFlags_of_tcb rfl)
      exact hsame.then_handover rfl rfl (handover_reschedule _)
  | releaseSemaphore m =>
    rw [Plan.enter]
    cases hq : a.queue (.semaphore m) with
    | nil =>
      rw [enterReleaseSemaphore_nil h.toUnlocked hq]
      split_ifs <;> exact hplain rfl rfl rfl
    | cons t ts =>
      rw [enterReleaseSemaphore_cons h.toUnlocked hq]
      exact sameFlags_promote.then_handover rfl rfl (handover_reschedule _)
  | _ => cases hf

end Plan

theorem Steady.enter {s : SchedState} {a : Plan} {e : Event} {f : SchedState → Outcome SchedState}
    (h : Steady s a) (he : a.Allowed e) (hf : e.entry = some f) : Refines (f s) (a.enter e) := by
  obtain ⟨hrep, hrest⟩ := h
  have hruns := hrest.toPlaced.runs
  have hfits := he.fits
  cases e <;> cases hf
  case threadSleep d => exact hrep.enterSleep hruns.free d
  case threadExit => exact hrep.enterExit hruns.free
  case acquireMutex m => exact hrep.enterAcquireMutex hruns hrest.postpone hfits
  case releaseMutex m => exact hrep.enterReleaseMutex hruns hrest.postpone hrest.levels hfits
  case acquireSemaphore m => exact hrep.enterAcquireSemaphore hruns hrest.postpone hfits
  case releaseSemaphore m =>
    exact hrep.enterReleaseSemaphore hruns hrest.postpone hrest.levels hfits

end Entering

namespace Point

/-- No lock is held at such a point. -/
def Between : Point → Prop
  | outside => True
  | decremented => True
  | loaded _ => True
  | _ => False

/-- What holds at the current thread's point. -/
def Here (a : Plan) : Point → Prop
  | outside => a.Resting
  | decremented => a.Resting
  | loaded _ => a.Resting
  | started => a.Leaving ∧ interruptFlag a.eflags = true
  | inCall entry => a.Leaving ∧ interruptFlag a.eflags = false ∧
      interruptFlag (a.tcb a.currentThread).savedInterruptState = entry
  | inTick before _ => a.Leaving ∧ interruptFlag a.eflags = false ∧ before.Between
  | fresh => False
  | dead => False

/-- What holds at the point of a thread without the CPU. -/
def Away (a : Plan) (t : ℕ) : Point → Prop
  | fresh => interruptFlag (a.tcb t).frameEflags = true
  | inCall entry => interruptFlag (a.tcb t).frameEflags = false ∧
      interruptFlag (a.tcb t).savedInterruptState = entry
  | inTick before _ => interruptFlag (a.tcb t).frameEflags = false ∧ before.Between
  | dead => a.Dead t
  | _ => False

/-- What a thread leaves behind when it gives the CPU away under the lock of `c`. -/
def Left (c b : Plan) : Point → Prop
  | inCall entry => interruptFlag (c.tcb c.currentThread).savedInterruptState = entry
  | inTick before _ => before.Between
  | dead => b.Dead c.currentThread
  | _ => False

variable {a b c : Plan} {p : Point} {t : ℕ}

theorem Between.here (hp : p.Between) (h : a.Resting) : p.Here a := by
  cases p <;> first | exact h | exact hp.elim

theorem Here.resting (h : p.Here a) (hflag : interruptFlag a.eflags = true) (hp : p ≠ started) :
    a.Resting ∧ p.Between := by
  cases p with
  | outside => exact ⟨h, trivial⟩
  | decremented => exact ⟨h, trivial⟩
  | loaded eflags => exact ⟨h, trivial⟩
  | started => exact absurd rfl hp
  | inCall entry =>
    rw [h.2.1] at hflag
    cases hflag
  | inTick before eflags =>
    rw [h.2.1] at hflag
    cases hflag
  | fresh => exact h.elim
  | dead => exact h.elim

theorem Away.congr (h : p.Away a t) (hflags : (b.tcb t).flags = (a.tcb t).flags)
    (hdead : a.Dead t → b.Dead t) : p.Away b t := by
  have hsaved : (b.tcb t).savedInterruptState = (a.tcb t).savedInterruptState :=
    congrArg Prod.fst hflags
  have hframe : (b.tcb t).frameEflags = (a.tcb t).frameEflags := congrArg Prod.snd hflags
  cases p with
  | dead => exact hdead h
  | fresh =>
    rw [Away, hframe]
    exact h
  | inCall entry =>
    rw [Away, hframe, hsaved]
    exact h
  | inTick before eflags =>
    rw [Away, hframe]
    exact h
  | _ => exact h.elim

/-- The old thread keeps the CPU: it is the one the `yield` picked. -/
theorem Left.here (h : p.Left c b) (hb : b.Leaving) (hand : c.Handover b)
    (hflag : interruptFlag c.eflags = false) (hstay : b.currentThread = c.currentThread) :
    p.Here b := by
  have he : interruptFlag b.eflags = false := by
    rw [hand.stay hstay]
    exact hflag
  cases p with
  | inCall entry =>
    refine ⟨hb, he, ?_⟩
    rw [hstay, hand.saved]
    exact h
  | inTick before eflags => exact ⟨hb, he, h⟩
  -- a thread that exited is in a queue, and the current thread is in none
  | dead =>
    have hfree := hb.toPlaced.free
    rw [hstay] at hfree
    exact h.elim (hfree _) (hfree _)
  | _ => exact h.elim

theorem Left.away (h : p.Left c b) (hand : c.Handover b) (hflag : interruptFlag c.eflags = false)
    (hgo : b.currentThread ≠ c.currentThread) : p.Away b c.currentThread := by
  have hframe : interruptFlag (b.tcb c.currentThread).frameEflags = false := by
    rw [(hand.leave hgo).2]
    exact hflag
  cases p with
  | inCall entry =>
    refine ⟨hframe, ?_⟩
    rw [hand.saved]
    exact h
  | inTick before eflags => exact ⟨hframe, h⟩
  | dead => exact h
  | _ => exact h.elim

/-- A thread that gets the CPU goes on from where it was left. -/
theorem Away.resume (h : p.Away c b.currentThread) (hb : b.Leaving) (hand : c.Handover b)
    (hgo : b.currentThread ≠ c.currentThread) (hdead : ∀ x, c.Dead x → b.Dead x) :
    p.resume.Here b := by
  have he := (hand.leave hgo).1
  have hsaved := hand.saved b.currentThread
  cases p with
  | fresh =>
    refine ⟨hb, ?_⟩
    rw [he]
    exact h
  | inCall entry =>
    refine ⟨hb, ?_, ?_⟩
    · rw [he]
      exact h.1
    · rw [hsaved]
      exact h.2
  | inTick before eflags =>
    refine ⟨hb, ?_, h.2⟩
    rw [he]
    exact h.1
  | dead => exact (hdead _ h).elim (hb.toPlaced.free _) (hb.toPlaced.free _)
  | _ => exact h.elim

end Point

namespace Machine

/-- The state between two steps of the machine. -/
structure Inv (m : Machine) (a : Plan) : Prop where
  rep : Rep m.sched a
  current : m.here.Here a
  away : ∀ t ∈ a.alive, t ≠ a.currentThread → (m.point t).Away a t
  switches : ∀ d ∈ m.switches, d = 1
  returns : ∀ b ∈ m.returns, b.1 = b.2

section Steps

variable {m : Machine} {a b c : Plan} {s : SchedState} {p : Point} {e : Event}

theorem Inv.here_eq (h : m.Inv a) : m.here = m.point a.currentThread := by
  rw [here, h.rep.current_eq]

theorem Inv.eflags_eq (h : m.Inv a) : m.sched.eflags = a.eflags :=
  congrArg Common.eflags h.rep.common

theorem Inv.irq_eq (h : m.Inv a) : m.sched.irqDisableCounter = a.irqDisableCounter :=
  congrArg Common.irqDisableCounter h.rep.common

/-- The lock is taken, and the CPU is given to whom the `yield` picks. -/
theorem Inv.suspend (h : m.Inv a) (hrep : Rep s b) (hb : b.Leaving) (hand : c.Handover b)
    (hcur : c.currentThread = a.currentThread) (hflag : interruptFlag c.eflags = false)
    (hsame : ∀ x, x ≠ a.currentThread → (c.tcb x).flags = (a.tcb x).flags)
    (halive : b.alive = a.alive) (hdead : ∀ x, a.Dead x → c.Dead x ∧ b.Dead x)
    (hback : ∀ x, c.Dead x → b.Dead x) (hp : p.Left c b) : (m.suspend s p).Inv b := by
  have hs := hrep.current_eq
  have hm := h.rep.current_eq
  -- the threads that neither leave nor get the CPU
  have hrest : ∀ x ∈ a.alive, x ≠ a.currentThread → (m.point x).Away b x := by
    intro x hx hne
    refine (h.away x hx hne).congr ?_ fun hd => (hdead x hd).2
    rw [← hsame x hne]
    exact Prod.ext (hand.saved x) (hand.frames x (hcur.symm ▸ hne))
  unfold Machine.suspend
  split_ifs with hstay
  · have hstay' : b.currentThread = c.currentThread := by
      rw [hcur, ← hs, ← hm]
      exact hstay
    refine ⟨hrep, ?_, ?_, h.switches, h.returns⟩
    · rw [here]
      simp only [hstay, update_self]
      exact hp.here hb hand hflag hstay'
    · intro x hx hne
      rw [halive] at hx
      rw [hstay', hcur] at hne
      simp only [hm, update_of_ne hne]
      exact hrest x hx hne
  · have hgo : b.currentThread ≠ c.currentThread := by
      rw [hcur, ← hs, ← hm]
      exact hstay
    have hgo' : b.currentThread ≠ a.currentThread := hcur ▸ hgo
    have hin : b.currentThread ∈ a.alive := halive ▸ hb.toPlaced.current
    refine ⟨hrep, ?_, ?_, ?_, h.returns⟩
    · rw [here]
      simp only [update_self, hs]
      refine Point.Away.resume (c := c) ?_ hb hand hgo hback
      exact (h.away _ hin hgo').congr (hsame _ hgo') fun hd => (hdead _ hd).1
    · intro x hx hne
      rw [halive] at hx
      simp only [hs, update_of_ne hne, hm]
      by_cases hxc : x = a.currentThread
      · rw [hxc, update_self, ← hcur]
        exact hp.away hand hflag hgo
      · rw [update_of_ne hxc]
        exact hrest x hx hxc
    · intro d hd
      rcases List.mem_cons.mp hd with rfl | hd
      · have hdepth : s.irqDisableCounter = b.irqDisableCounter :=
          congrArg Common.irqDisableCounter hrep.common
        exact hdepth.trans hb.irq
      · exact h.switches d hd

/-- A step after which no lock is held and the same thread goes on. -/
theorem Inv.settle {point : ℕ → Point} {returns : List (Bool × Bool)} (h : m.Inv a)
    (hrep : Rep s b) (hb : b.Resting) (hp : (point b.currentThread).Between)
    (haway : ∀ x ∈ b.alive, x ≠ b.currentThread → (point x).Away b x)
    (hret : ∀ r ∈ returns, r.1 = r.2) : Inv ⟨s, point, m.switches, returns⟩ b where
  rep := hrep
  current := by
    rw [here, hrep.current_eq]
    exact hp.here hb
  away := haway
  switches := h.switches
  returns := hret

/-- The current thread moves on and the others are left alone. -/
theorem Inv.goTo (h : m.Inv a) (hrep : Rep s b) (hb : b.Resting) (hp : p.Between)
    (hcur : b.currentThread = a.currentThread) (halive : b.alive = a.alive)
    (hsame : ∀ x, x ≠ a.currentThread → (b.tcb x).flags = (a.tcb x).flags)
    (hdead : ∀ x, a.Dead x → b.Dead x) : (m.goTo s p).Inv b := by
  have hm := h.rep.current_eq
  refine h.settle hrep hb ?_ ?_ h.returns
  · rw [hcur, hm, update_self]
    exact hp
  · intro x hx hne
    rw [hcur] at hne
    rw [halive] at hx
    rw [hm, update_of_ne hne]
    exact (h.away x hx hne).congr (hsame x hne) (hdead x)

theorem flags_lockScheduler {x : ℕ} (hx : x ≠ a.currentThread) :
    (a.lockScheduler.tcb x).flags = (a.tcb x).flags := by
  simp only [Plan.lockScheduler]
  split_ifs
  · rw [update_of_ne hx]
  · rfl

theorem Inv.resting (h : m.Inv a) (hpoint : m.here = .outside) : a.Resting := by
  have hhere := h.current
  rw [hpoint] at hhere
  exact hhere

/-- A call that ends with `unlock_scheduler`. -/
theorem Inv.enter {f : SchedState → Outcome SchedState} (h : m.Inv a)
    (hpoint : m.here = .outside) (he : a.Allowed e) (hf : e.entry = some f) :
    ∃ s, f m.sched = .ok s ∧ (m.suspend s
      (if e = .threadExit then .dead else .inCall (interruptFlag m.sched.eflags))).Inv
        (a.enter e) := by
  have hrest := h.resting hpoint
  have hflags := h.eflags_eq
  have hreap : e ≠ .reapThread := by
    rintro rfl
    cases hf
  have hcreate : ∀ t, e ≠ .createKernelThread t := by
    rintro t rfl
    cases hf
  have hstep := Plan.step_eq_enter (a := a) hf
  have hdead : ∀ x, (a.enter e).Dead x ↔ a.Dead x ∨ e = .threadExit ∧ x = a.currentThread := by
    intro x
    rw [← hrest.dead_iff he hreap, hstep]
    exact Iff.rfl
  have halive : (a.enter e).alive = a.alive := by
    rw [← hrest.alive_step hcreate hreap, hstep]
    rfl
  obtain ⟨s, hs, hrep⟩ := Steady.enter ⟨h.rep, hrest⟩ he hf
  refine ⟨s, hs, h.suspend hrep (hrest.enter he hf) (hrest.handover_enter hf) rfl
    (interruptFlag_cli _) (fun x hx => flags_lockScheduler hx) halive
    (fun x hx => ⟨hx, (hdead x).mpr (.inl hx)⟩) (fun x hx => (hdead x).mpr (.inl hx)) ?_⟩
  split_ifs with hexit
  · exact (hdead _).mpr (.inr ⟨hexit, rfl⟩)
  · change interruptFlag (a.lockScheduler.tcb a.currentThread).savedInterruptState = _
    simp only [Plan.lockScheduler, hrest.irq, if_true, update_self, hflags]

/-- The calls that give nobody the CPU. -/
theorem Inv.work (h : m.Inv a) (hpoint : m.here = .outside) (he : a.Allowed e)
    (hf : e.entry = none) (htick : e ≠ .tick) :
    ∃ m', m.call e = .ok m' ∧ m'.Inv (a.step e) := by
  have hrest := h.resting hpoint
  have hsteady : Steady m.sched a := ⟨h.rep, hrest⟩
  obtain ⟨s, hs, hrep⟩ := hsteady.refines he
  have hb := hrest.step he
  have hout : m.point a.currentThread = .outside := by
    rw [← h.here_eq, hpoint]
  cases e with
  | createKernelThread t =>
    have hnew : ∀ {x}, x ∈ a.alive → x ≠ t := by
      rintro x hx rfl
      exact he.fits.2.2 hx
    refine ⟨_, by simp only [Machine.call, hf, hs, Outcome.ok_bind]; rfl, ?_⟩
    refine h.settle hrep hb ?_ ?_ h.returns
    · have hcur : (a.step (.createKernelThread t)).currentThread = a.currentThread := rfl
      rw [hcur, update_of_ne (hnew hrest.current), hout]
      trivial
    · intro x hx hne
      rcases Finset.mem_insert.mp hx with rfl | hx
      · rw [update_self]
        have hframe := congrArg Prod.snd (a.flags_createKernelThread_self x)
        change interruptFlag ((a.createKernelThread x).tcb x).flags.2 = true
        rw [hframe]
        decide
      · rw [update_of_ne (hnew hx)]
        exact (h.away x hx hne).congr (a.flags_createKernelThread_of_ne (hnew hx))
          fun hd => (hrest.dead_iff he (by simp)).mpr (.inl hd)
  | createMutex mutex =>
    refine ⟨_, by simp only [Machine.call, hf, hs, Outcome.ok_bind]; rfl, ?_⟩
    exact h.settle hrep hb (hout.symm ▸ trivial) (fun x hx hne => h.away x hx hne) h.returns
  | createSemaphore semaphore maxCount =>
    refine ⟨_, by simp only [Machine.call, hf, hs, Outcome.ok_bind]; rfl, ?_⟩
    exact h.settle hrep hb (hout.symm ▸ trivial) (fun x hx hne => h.away x hx hne) h.returns
  | detachTerminated =>
    refine ⟨_, by simp only [Machine.call, hf, hs, Outcome.ok_bind]; rfl, ?_⟩
    refine h.settle hrep hb (hout.symm ▸ trivial) (fun x hx hne => ?_) h.returns
    exact (h.away x hx hne).congr (flags_lockScheduler hne)
      fun hd => (hrest.dead_iff he (by simp)).mpr (.inl hd)
  | reapThread =>
    obtain ⟨t, ts, hq⟩ := List.exists_cons_of_ne_nil he.fits
    refine ⟨_, by simp only [Machine.call, hf, hs, Outcome.ok_bind]; rfl, ?_⟩
    refine h.settle hrep hb (hout.symm ▸ trivial) (fun x hx hne => ?_) h.returns
    have hx' : x ≠ t ∧ x ∈ a.alive := by
      have hal : (a.step .reapThread).alive = a.alive.erase t := by
        rw [Plan.step, Plan.reapThread, hq, List.headD_cons]
      rw [hal] at hx
      exact Finset.mem_erase.mp hx
    exact (h.away x hx'.2 hne).congr rfl ((Plan.dead_reapThread hq).2 hx'.1)
  | tick => exact absurd rfl htick
  | _ => cases hf

theorem Inv.call (h : m.Inv a) (hall : m.Allowed (.call e)) :
    ∃ m' a', m.call e = .ok m' ∧ m'.Inv a' := by
  obtain ⟨hpoint, htick, hev⟩ := hall
  have he := h.rep.allowed.mp hev
  cases hf : e.entry with
  | none =>
    obtain ⟨m', hok, h'⟩ := h.work hpoint he hf htick
    exact ⟨m', _, hok, h'⟩
  | some f =>
    obtain ⟨s, hs, h'⟩ := h.enter hpoint he hf
    refine ⟨_, _, ?_, h'⟩
    simp only [Machine.call, hf, hs, Outcome.ok_bind]
    rfl

/-- The interrupt gate and the tick count. -/
def tickEntry (a : Plan) : Plan :=
  { a with eflags := cli a.eflags, systemTicks := (a.systemTicks + 1) % 2 ^ 64 }

theorem Inv.tick (h : m.Inv a) (hflag : interruptFlag m.sched.eflags = true)
    (hcalm : m.here ≠ .started) : ∃ m' a', m.tick = .ok m' ∧ m'.Inv a' := by
  have he := h.eflags_eq
  obtain ⟨hrest, hbetween⟩ := h.current.resting (he ▸ hflag) hcalm
  have hent : (tickEntry a).Resting := (resting_withFlags hrest (cli a.eflags)).countSystemTick
  have hbody := hent.tickBody
  have hrep : Rep { m.sched with
      eflags := cli m.sched.eflags
      systemTicks := (m.sched.systemTicks + 1) % 2 ^ 64 } (tickEntry a) :=
    h.rep.mapCommon (fun c => { c with
      eflags := cli c.eflags
      systemTicks := (c.systemTicks + 1) % 2 ^ 64 }) (fun _ => rfl) (fun _ => rfl) fun _ => rfl
  obtain ⟨s, hs, hrep'⟩ := hrep.enterTick hbody.lockScheduler.toPlaced.runs.yieldable
  have hflags : Plan.SameFlags a (tickEntry a).tickBody.2 := (tickEntry a).sameFlags_tickBody
  have hframe := (tickEntry a).tickFrame_tickBody
  have hcur : (tickEntry a).tickBody.2.currentThread = a.currentThread := by rw [hframe]; rfl
  have halive : (tickEntry a).tickBody.2.alive = a.alive := by rw [hframe]; rfl
  have hdead : ∀ x, a.Dead x → (tickEntry a).tickBody.2.Dead x := by
    intro x hx
    rw [Plan.Dead, Plan.queue_tickBody (by simp) (by simp),
      Plan.queue_tickBody (by simp) (by simp)]
    exact hx
  by_cases hy : (tickEntry a).tickBody.1 = true
  · have hq : (tickEntry a).enterTick =
        (true, (tickEntry a).tickBody.2.lockScheduler.reschedule) := by
      rw [Plan.enterTick, if_pos hy, Plan.yield_of_zero (by exact hbody.postpone)]
    rw [hq] at hs hrep'
    refine ⟨m.suspend s (.inTick m.here m.sched.eflags),
      (tickEntry a).tickBody.2.lockScheduler.reschedule, ?_, ?_⟩
    · simp only [Machine.tick, hs, Outcome.ok_bind]
      rfl
    · refine h.suspend hrep' hbody.lockScheduler.reschedule (Plan.handover_reschedule _) hcur
        (interruptFlag_cli _) ?_ ((Plan.sameObjects_reschedule _).alive.trans halive) ?_ ?_ hbetween
      · intro x hx
        rw [flags_lockScheduler (hcur.symm ▸ hx)]
        exact hflags x
      · intro x hx
        have hd := hdead x hx
        exact ⟨hd, Plan.dead_reschedule.mpr hd⟩
      · intro x hx
        exact Plan.dead_reschedule.mpr hx
  · have hq : (tickEntry a).enterTick = (false, (tickEntry a).tickBody.2) := by
      rw [Plan.enterTick, if_neg hy]
    rw [hq] at hs hrep'
    refine ⟨{ m with sched := { s with eflags := m.sched.eflags } },
      { (tickEntry a).tickBody.2 with eflags := m.sched.eflags }, ?_, ?_⟩
    · simp only [Machine.tick, hs, Outcome.ok_bind]
      rfl
    · refine h.settle (rep_withFlags hrep' _) (resting_withFlags hbody _) ?_ ?_ h.returns
      · rw [h.here_eq] at hbetween
        simp only [hcur]
        exact hbetween
      · intro x hx hne
        simp only [hcur, halive] at hx hne
        exact (h.away x hx hne).congr (hflags x) (hdead x)

theorem Inv.unlock (h : m.Inv a) (ha : a.Leaving) :
    ∃ s, unlockScheduler m.sched = .ok s ∧ Rep s a.unlockScheduler ∧ a.unlockScheduler.Resting ∧
      s.eflags = (a.tcb a.currentThread).savedInterruptState := by
  obtain ⟨s, hs, hrep⟩ := h.rep.unlockScheduler
  have hflags : s.eflags = a.unlockScheduler.eflags := congrArg Common.eflags hrep.common
  refine ⟨s, hs, hrep, ha.unlockScheduler, ?_⟩
  rw [hflags, Plan.unlockScheduler]
  simp only [ha.irq]
  rfl

theorem Inv.finish {entry : Bool} (h : m.Inv a) (hpoint : m.here = .inCall entry) :
    ∃ m', m.exec .finish = .ok m' ∧ m'.Inv a.unlockScheduler := by
  have hhere := h.current
  rw [hpoint] at hhere
  obtain ⟨ha, -, hsaved⟩ := hhere
  obtain ⟨s, hs, hrep, hrest, hflags⟩ := h.unlock ha
  refine ⟨_, by simp only [Machine.exec, hs, hpoint, Outcome.ok_bind]; rfl, ?_⟩
  have hgo : (m.goTo s .outside).Inv a.unlockScheduler :=
    h.goTo hrep hrest trivial rfl rfl (fun _ _ => rfl) fun _ hd => hd
  refine { hgo with returns := ?_ }
  intro r hr
  rcases List.mem_cons.mp hr with rfl | hr
  · rw [hflags]
    exact hsaved.symm
  · exact h.returns r hr

theorem Inv.iret {before : Point} {eflags : BitVec 32} (h : m.Inv a)
    (hpoint : m.here = .inTick before eflags) :
    ∃ m' a', m.exec .iret = .ok m' ∧ m'.Inv a' := by
  have hhere := h.current
  rw [hpoint] at hhere
  obtain ⟨ha, -, hbetween⟩ := hhere
  obtain ⟨s, hs, hrep, hrest, -⟩ := h.unlock ha
  refine ⟨_, { a.unlockScheduler with eflags := eflags },
    by simp only [Machine.exec, hs, hpoint, Outcome.ok_bind]; rfl, ?_⟩
  exact h.goTo (rep_withFlags hrep eflags) (resting_withFlags hrest eflags) hbetween rfl rfl
    (fun _ _ => rfl) fun _ hd => hd

theorem sched_suspend : (m.suspend s p).sched = s := by
  unfold Machine.suspend
  split_ifs <;> rfl

theorem here_goTo (hs : s.currentThread = m.sched.currentThread) : (m.goTo s p).here = p := by
  simp only [here, goTo, hs, update_self]

theorem start_started (hpoint : m.here = .started) (hirq : m.sched.irqDisableCounter = 1) :
    m.start = m.goTo { m.sched with irqDisableCounter := 0 } .decremented := by
  simp only [Machine.start, hpoint, hirq]
  rfl

theorem start_decremented (hpoint : m.here = .decremented) :
    m.start = m.goTo m.sched (.loaded (m.sched.tcb m.sched.currentThread).savedInterruptState) := by
  simp only [Machine.start, hpoint]

theorem start_loaded {eflags : BitVec 32} (hpoint : m.here = .loaded eflags) :
    m.start = m.goTo { m.sched with eflags := eflags } .outside := by
  simp only [Machine.start, hpoint]

theorem Inv.start (h : m.Inv a) (hall : m.Allowed .start) : ∃ a', m.start.Inv a' := by
  have hhere := h.current
  rcases hall with hpoint | hpoint | ⟨eflags, hpoint⟩ <;> rw [hpoint] at hhere
  · have ha := hhere.1
    have hrest : Plan.Resting { a with irqDisableCounter := 0 } :=
      ⟨ha.toPlaced.congr rfl rfl rfl rfl rfl rfl fun _ => ⟨rfl, rfl⟩, ⟨rfl, ha.postpone, ha.flag⟩,
        ha.nonnull⟩
    have hrep : Rep { m.sched with irqDisableCounter := 0 } { a with irqDisableCounter := 0 } :=
      h.rep.mapCommon (fun c => { c with irqDisableCounter := 0 }) (fun _ => rfl) (fun _ => rfl)
        fun _ => rfl
    rw [start_started hpoint (h.irq_eq.trans ha.irq)]
    exact ⟨_, h.goTo hrep hrest trivial rfl rfl (fun _ _ => rfl) fun _ hd => hd⟩
  · rw [start_decremented hpoint]
    exact ⟨a, h.goTo h.rep hhere trivial rfl rfl (fun _ _ => rfl) fun _ hd => hd⟩
  · rw [start_loaded hpoint]
    exact ⟨_, h.goTo (rep_withFlags h.rep eflags) (resting_withFlags hhere eflags) trivial rfl rfl
      (fun _ _ => rfl) fun _ hd => hd⟩

theorem Inv.setFlags (h : m.Inv a) (hpoint : m.here = .outside) (eflags : BitVec 32) :
    Inv { m with sched := { m.sched with eflags := eflags } } { a with eflags := eflags } := by
  refine h.settle (rep_withFlags h.rep eflags) (resting_withFlags (h.resting hpoint) eflags) ?_ ?_
    h.returns
  · have hout : m.point a.currentThread = .outside := by
      rw [← h.here_eq, hpoint]
    simp only [hout]
    trivial
  · exact fun x hx hne => h.away x hx hne

/-- Every step that no early tick spoils returns. -/
theorem Inv.exec {x : Act} (h : m.Inv a) (hall : m.Allowed x)
    (hcalm : x = .tick → m.here ≠ .started) : ∃ m' a', m.exec x = .ok m' ∧ m'.Inv a' := by
  cases x with
  | call e => exact h.call hall
  | setFlags eflags => exact ⟨_, _, rfl, h.setFlags hall eflags⟩
  | finish =>
    obtain ⟨entry, hpoint⟩ := hall
    obtain ⟨m', hok, h'⟩ := h.finish hpoint
    exact ⟨m', _, hok, h'⟩
  | tick => exact h.tick hall (hcalm rfl)
  | iret =>
    obtain ⟨before, eflags, hpoint⟩ := hall
    exact h.iret hpoint
  | start =>
    obtain ⟨a', h'⟩ := h.start hall
    exact ⟨_, a', rfl, h'⟩

end Steps

section Results

variable {m m' : Machine} {a : Plan} {s : SchedState} {root idle cleaner : ℕ}

theorem Inv.run (h : m.Inv a) (hr : ReflTransGen CalmStep m m') : ∃ a', m'.Inv a' := by
  induction hr with
  | refl => exact ⟨a, h⟩
  | tail _ hstep ih =>
    obtain ⟨a', h'⟩ := ih
    obtain ⟨x, hall, hcalm, hok⟩ := hstep
    obtain ⟨m'', a'', hok', h''⟩ := h'.exec hall hcalm
    cases hok.symm.trans hok'
    exact ⟨a'', h''⟩

/-- The root thread runs, and nobody else has. -/
def initial (s : SchedState) (root : ℕ) : Machine :=
  ⟨s, fun t => if t = root then .outside else .fresh, [], []⟩

theorem initial_inv (hb : Boot s) (hm : Blocks root idle cleaner) {s₀ : SchedState}
    (h : Steady s₀ (startPlan s root idle cleaner)) :
    (initial s₀ root).Inv (startPlan s root idle cleaner) where
  rep := h.rep
  current := by
    have hcur : s₀.currentThread = root := h.rep.current_eq
    rw [here]
    simp only [initial, hcur, if_true]
    exact h.resting
  away t ht hne := by
    have hroot : t ≠ root := hne
    simp only [initial, if_neg hroot]
    have hflags : ((startPlan s root idle cleaner).tcb t).flags.2 = newEflags := by
      by_cases hc : t = cleaner
      · rw [hc]
        exact congrArg Prod.snd (Plan.flags_createKernelThread_self _ _)
      · rw [startPlan, Plan.flags_createKernelThread_of_ne _ hc]
        have hidle : t = idle := by
          rcases Finset.mem_insert.mp ht with ht | ht
          · exact absurd ht hc
          · exact ((mem_initialState hb).mp ht).resolve_right hroot
        subst hidle
        simp [initialPlan, initialState, idleThreadBlock, Thread.flags]
    change interruptFlag ((startPlan s root idle cleaner).tcb t).flags.2 = true
    rw [hflags]
    decide
  switches := by simp [initial]
  returns := by simp [initial]

/-- As long as no tick comes between a thread's first dispatch and the decrement of its
first `unlock_scheduler`, the lock depth and the interrupt flag agree everywhere but in
that gap, every context switch is at depth 1 and every call gives the caller's interrupt
flag back. -/
theorem lock_depth_agrees (hb : Boot s) (hm : Blocks root idle cleaner) :
    ∃ s₀, initializeMultitasking s root idle cleaner = .ok s₀ ∧
      ∀ m, ReflTransGen CalmStep (initial s₀ root) m →
        ((interruptFlag m.sched.eflags = true → m.sched.irqDisableCounter = 0) ↔
          m.here ≠ .started) ∧
        (∀ d ∈ m.switches, d = 1) ∧ (∀ b ∈ m.returns, b.1 = b.2) ∧
        ∀ x, m.Allowed x → (x = .tick → m.here ≠ .started) → ∃ m', m.exec x = .ok m' := by
  obtain ⟨s₀, hs₀, h₀⟩ := initializeMultitasking_steady hb hm
  refine ⟨s₀, hs₀, ?_⟩
  intro m hr
  obtain ⟨a, h⟩ := (initial_inv hb hm h₀).run hr
  have hirq := h.irq_eq
  have hflags := h.eflags_eq
  refine ⟨⟨?_, ?_⟩, h.switches, h.returns, ?_⟩
  · intro hagree hstarted
    have hhere := h.current
    rw [hstarted] at hhere
    have hzero := hagree (hflags ▸ hhere.2)
    rw [hirq, hhere.1.irq] at hzero
    exact one_ne_zero hzero
  · intro hstarted hon
    rw [hirq]
    exact (h.current.resting (hflags ▸ hon) hstarted).1.irq
  · intro x hall hcalm
    obtain ⟨m', -, hok, -⟩ := h.exec hall hcalm
    exact ⟨m', hok⟩

/-- A new thread that is left alone comes through its first `unlock_scheduler` with the
flags that its control block keeps. -/
theorem first_unlock (hpoint : m.here = .started) (hirq : m.sched.irqDisableCounter = 1) :
    ∃ m', ReflTransGen CalmStep m m' ∧ m'.here = .outside ∧
      m'.sched = { m.sched with
        irqDisableCounter := 0
        eflags := (m.sched.tcb m.sched.currentThread).savedInterruptState } ∧
      m'.switches = m.switches := by
  obtain ⟨m₁, h₁, hpoint₁, hsched₁, hswitch₁⟩ : ∃ m₁, CalmStep m m₁ ∧ m₁.here = .decremented ∧
      m₁.sched = { m.sched with irqDisableCounter := 0 } ∧ m₁.switches = m.switches :=
    ⟨_, ⟨.start, .inl hpoint, by simp, congrArg Except.ok (start_started hpoint hirq)⟩,
      here_goTo rfl, rfl, rfl⟩
  have hload := start_decremented hpoint₁
  rw [hsched₁] at hload
  obtain ⟨m₂, h₂, hpoint₂, hsched₂, hswitch₂⟩ : ∃ m₂, CalmStep m₁ m₂ ∧
      m₂.here = .loaded (m.sched.tcb m.sched.currentThread).savedInterruptState ∧
      m₂.sched = { m.sched with irqDisableCounter := 0 } ∧ m₂.switches = m.switches :=
    ⟨_, ⟨.start, .inr (.inl hpoint₁), by simp, congrArg Except.ok hload⟩,
      here_goTo (by rw [hsched₁]), rfl, hswitch₁⟩
  have hpop := start_loaded hpoint₂
  rw [hsched₂] at hpop
  have h₃ : CalmStep m₂ _ := ⟨.start, .inr (.inr ⟨_, hpoint₂⟩), by simp, congrArg Except.ok hpop⟩
  exact ⟨_, .head h₁ (.head h₂ (.single h₃)), here_goTo (by rw [hsched₂]), rfl, hswitch₂⟩

/-- The root thread's first `thread_sleep` gives the CPU to the cleaner, which is new. -/
theorem first_sleep {s₀ : SchedState} (h₀ : Steady s₀ (startPlan zeroState 16 32 48)) :
    ∃ m d, CalmStep (initial s₀ 16) m ∧ m.Inv ((startPlan zeroState 16 32 48).enter (.threadSleep 1)) ∧
      m.here = .started ∧ m.switches = [d] := by
  have hinv := initial_inv zeroState_boot sampleBlocks h₀
  have he : (startPlan zeroState 16 32 48).Allowed (.threadSleep 1) := by decide
  have hcur : s₀.currentThread = 16 := h₀.rep.current_eq
  have hout : (initial s₀ 16).here = .outside := by
    rw [here]
    simp only [initial, hcur, if_true]
  obtain ⟨s, hs, h⟩ := hinv.enter hout he rfl
  rw [if_neg (by simp)] at h
  have hnext : s.currentThread = 48 := by
    have hsched := h.rep.current_eq
    rw [sched_suspend] at hsched
    exact hsched.trans (by decide)
  have hgo : ¬ s.currentThread = (initial s₀ 16).sched.currentThread := by
    rw [hnext, show (initial s₀ 16).sched.currentThread = 16 from hcur]
    decide
  have hall : (initial s₀ 16).Allowed (.call (.threadSleep 1)) :=
    ⟨hout, by simp, hinv.rep.allowed.mpr he⟩
  have hok : (initial s₀ 16).exec (.call (.threadSleep 1)) = .ok ((initial s₀ 16).suspend s
      (.inCall (interruptFlag (initial s₀ 16).sched.eflags))) := by
    simp only [Machine.exec, Machine.call, Event.entry, hs, Outcome.ok_bind]
    rfl
  refine ⟨_, s.irqDisableCounter, ⟨_, hall, by simp, hok⟩, h, ?_, ?_⟩
  · rw [Machine.suspend, if_neg hgo, here]
    simp [initial, hnext, Point.resume]
  · rw [Machine.suspend, if_neg hgo]
    rfl

/-- The cleaner comes through its first `unlock_scheduler`, and is ticked. -/
theorem lock_depth_agrees_sample :
    ∃ s₀ m, initializeMultitasking zeroState 16 32 48 = .ok s₀ ∧
      ReflTransGen CalmStep (initial s₀ 16) m ∧ m.here = .outside ∧
      interruptFlag m.sched.eflags = true ∧ m.sched.irqDisableCounter = 0 ∧ m.switches = [1] ∧
      ∃ m', m.exec .tick = .ok m' := by
  obtain ⟨s₀, hs₀, hrun⟩ := lock_depth_agrees zeroState_boot sampleBlocks
  obtain ⟨s, hs, h₀⟩ := initializeMultitasking_steady zeroState_boot sampleBlocks
  cases hs.symm.trans hs₀
  obtain ⟨m, d, hsleep, h, hstarted, hswitch⟩ := first_sleep h₀
  have hirq : m.sched.irqDisableCounter = 1 := h.irq_eq.trans (by decide)
  have hsaved : (m.sched.tcb m.sched.currentThread).savedInterruptState = newEflags := by
    rw [h.rep.tcb_eq, h.rep.current_eq]
    decide
  obtain ⟨m', hunlock, hpoint, hsched, hsame⟩ := first_unlock hstarted hirq
  have hr : ReflTransGen CalmStep (initial s₀ 16) m' := .head hsleep hunlock
  obtain ⟨hagree, hdepth, -, hgoes⟩ := hrun m' hr
  have hout : m'.here ≠ .started := by simp [hpoint]
  have hon : interruptFlag m'.sched.eflags = true := by
    have hflags : interruptFlag newEflags = true := by decide
    rw [hsched, hsaved]
    exact hflags
  have hlist : m'.switches = [d] := hsame.trans hswitch
  have hd : d = 1 := hdepth d (by rw [hlist]; exact List.mem_singleton_self d)
  exact ⟨s₀, m', hs₀, hr, hpoint, hon, hagree.mpr hout hon, hd ▸ hlist, hgoes .tick hon fun _ => hout⟩

/-- The first `thread_sleep` of the root thread gives the CPU to the cleaner, which starts
with interrupts on and the lock still held. -/
theorem new_thread_holds_lock :
    ∃ s₀ m, initializeMultitasking zeroState 16 32 48 = .ok s₀ ∧
      ReflTransGen Step (initial s₀ 16) m ∧
      interruptFlag m.sched.eflags = true ∧ m.sched.irqDisableCounter = 1 := by
  obtain ⟨s₀, hs₀, h₀⟩ := initializeMultitasking_steady zeroState_boot sampleBlocks
  obtain ⟨m, -, ⟨x, hall, -, hok⟩, h, -⟩ := first_sleep h₀
  refine ⟨s₀, m, hs₀, .single ⟨x, hall, hok⟩, ?_, ?_⟩
  · rw [h.eflags_eq]
    decide
  · rw [h.irq_eq]
    decide

end Results

end Machine

end KallarOS.Sched
