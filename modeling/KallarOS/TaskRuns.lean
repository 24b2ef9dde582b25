import KallarOS.TaskSwitch

namespace KallarOS.Task
open ByteMemory

/-- The memory that belongs to one thread: its stack and the `esp` field of its
control block. -/
structure Home where
  tcb : Word
  stack : Set ℕ
  space : ∀ a ∈ stack, a < 2 ^ 32
  apart : ∀ a ∈ stack, a < tcb.toNat ∨ tcb.toNat + 4 ≤ a

namespace Home

def Owns (h : Home) (a : ℕ) : Prop := a ∈ h.stack ∨ (h.tcb.toNat ≤ a ∧ a < h.tcb.toNat + 4)

def Apart (h h' : Home) : Prop := ∀ a, h.Owns a → ¬h'.Owns a

/-- All of `[a, b)` is stack. -/
def Covers (h : Home) (a b : ℕ) : Prop := ∀ i, a ≤ i → i < b → i ∈ h.stack

theorem Covers.tcb {h : Home} {a b : ℕ} (hc : h.Covers a b) (hlt : a < b) :
    h.tcb.toNat + 4 ≤ a ∨ b ≤ h.tcb.toNat := by
  by_contra hcon
  have hcell : ∀ k < 4, ¬(a ≤ h.tcb.toNat + k ∧ h.tcb.toNat + k < b) := by
    rintro k hk ⟨hle, hlt'⟩
    have := h.apart _ (hc _ hle hlt')
    omega
  have h0 := hcell 0 (by omega)
  have ha := h.apart a (hc a (Nat.le_refl a) hlt)
  omega

theorem Covers.apart {h h' : Home} {a b a' b' : ℕ} (hc : h.Covers a b) (hc' : h'.Covers a' b')
    (hh : h.Apart h') (hlt : a < b) (hlt' : a' < b') : b ≤ a' ∨ b' ≤ a := by
  by_contra hcon
  have hmem : ∀ i, ¬(a ≤ i ∧ i < b ∧ a' ≤ i ∧ i < b') := by
    rintro i ⟨h1, h2, h3, h4⟩
    exact hh i (.inl (hc i h1 h2)) (.inl (hc' i h3 h4))
  have h1 := hmem a
  have h2 := hmem a'
  omega

theorem Covers.apart_tcb {h h' : Home} {a b : ℕ} (hc : h.Covers a b) (hh : h.Apart h')
    (hlt : a < b) : h'.tcb.toNat + 4 ≤ a ∨ b ≤ h'.tcb.toNat := by
  by_contra hcon
  have hmem : ∀ i, ¬(a ≤ i ∧ i < b ∧ h'.tcb.toNat ≤ i ∧ i < h'.tcb.toNat + 4) := by
    rintro i ⟨h1, h2, h3⟩
    exact hh i (.inl (hc i h1 h2)) (.inr h3)
  have h1 := hmem a
  have h2 := hmem h'.tcb.toNat
  omega

end Home

/-- Where a thread that does not run stands: not yet started, or inside its own
call of `switch_to_task`, in the context and at the stack pointer it made the call
with. -/
inductive Point where
  | fresh (entryPoint : Word)
  | suspended (x : Context) (esp : ℕ)

def Point.context : Point → Context
  | .fresh entryPoint => ⟨0, 0, 0, 0, 0x202, entryPoint⟩
  | .suspended x _ => x

/-- The threads of a machine by name; `point` is `none` for the running thread and
for names that are not in use. -/
structure System where
  cpu : Cpu
  current : ℕ
  point : ℕ → Option Point

section Runs
variable (home : ℕ → Home) (threadExit : Word)

namespace System

def Live (s : System) (i : ℕ) : Prop := i = s.current ∨ s.point i ≠ none

/-- The running thread has room on its stack for the call. -/
def Room (s : System) : Prop :=
  32 ≤ s.cpu.esp.toNat ∧
    (home s.current).Covers (s.cpu.esp.toNat - 32) s.cpu.esp.toNat

/-- `switch_to_task(&prev->esp, next->esp)` called by the running thread. -/
def switchTo (s : System) (next : ℕ) (returnTo : Word) : System :=
  let c := pushArguments s.cpu (home s.current).tcb (home next).tcb
  { cpu := callSwitch c returnTo
    current := next
    point := Function.update (Function.update s.point next none) s.current
      (some (.suspended (c.context returnTo) c.esp.toNat)) }

def create (s : System) (i stackBase : ℕ) (entryPoint : Word) : System :=
  { s with
    cpu := { s.cpu with
      mem := createKernelThread s.cpu.mem (home i).tcb.toNat stackBase entryPoint threadExit }
    point := Function.update s.point i (some (.fresh entryPoint)) }

/-- After `initialize_multitasking`: thread 0 runs, 1 is the idle thread and 2 the
cleaner. -/
def boot (c : Cpu) (idleStackBase cleanerStackBase : ℕ) (idleThreadMethod cleanerTask : Word) :
    System where
  cpu := { c with
    mem := initializeMultitasking c.mem (home 1).tcb.toNat idleStackBase (home 2).tcb.toNat
      cleanerStackBase idleThreadMethod cleanerTask threadExit }
  current := 0
  point := Function.update (Function.update (fun _ => none) 1 (some (.fresh idleThreadMethod)))
    2 (some (.fresh cleanerTask))

end System

/-- The memory of a new thread: nobody else's, with its first frame on its stack. -/
structure Placed (s : System) (i stackBase : ℕ) : Prop where
  unused : ¬s.Live i
  apart : ∀ j, s.Live j → (home i).Apart (home j) ∧ (home j).Apart (home i)
  stack : (home i).Covers (stackStart stackBase) (stackStart stackBase + 28)

inductive Step : System → System → Prop
  | run (s : System) (c : Cpu)
      (h : ∀ j, s.point j ≠ none → ∀ a, (home j).Owns a → c.mem a = s.cpu.mem a) :
      Step s { s with cpu := c }
  | create (s : System) (i stackBase : ℕ) (entryPoint : Word) (h : Placed home s i stackBase) :
      Step s (s.create home threadExit i stackBase entryPoint)
  | reap (s : System) (i : ℕ) : Step s { s with point := Function.update s.point i none }
  | switch (s : System) (next : ℕ) (returnTo : Word) (hnext : s.point next ≠ none)
      (h : s.Room home) : Step s (s.switchTo home next returnTo)

/-- What the thread finds when it gets the processor. -/
def Resumes (c : Cpu) : Point → Prop
  | .fresh entryPoint =>
    c.eip = entryPoint ∧ c.eflags.word = 0x202 ∧ c.reg .ebp = 0 ∧ c.reg .ebx = 0 ∧
      c.reg .esi = 0 ∧ c.reg .edi = 0 ∧ c.load c.esp = threadExit
  | .suspended x esp =>
    c.eip = x.returnTo ∧ c.eflags.word = x.eflags ∧ c.reg .ebp = x.ebp ∧ c.reg .ebx = x.ebx ∧
      c.reg .esi = x.esi ∧ c.reg .edi = x.edi ∧ c.esp.toNat = esp

/-- The stack of a thread that does not run, as `switch_to_task` will find it. -/
structure Parked (h : Home) (m : Mem) (p : Point) : Prop where
  words : Holds m (read32 m h.tcb.toNat) p.context.words
  inside : h.Covers (read32 m h.tcb.toNat) (read32 m h.tcb.toNat + 24)
  top : read32 m h.tcb.toNat + 24 < 2 ^ 32
  fresh : ∀ entryPoint, p = .fresh entryPoint →
    word m (read32 m h.tcb.toNat + 24) = threadExit ∧
      h.Covers (read32 m h.tcb.toNat) (read32 m h.tcb.toNat + 28)
  suspended : ∀ x esp, p = .suspended x esp →
    legalFlags x.eflags = x.eflags ∧ read32 m h.tcb.toNat + 24 = esp

structure Good (s : System) : Prop where
  running : s.point s.current = none
  apart : ∀ i j, s.Live i → s.Live j → i ≠ j → (home i).Apart (home j)
  parked : ∀ j p, s.point j = some p → Parked threadExit (home j) s.cpu.mem p

variable {home threadExit}

/-- A thread stays parked while its own memory is left alone. -/
theorem Parked.congr {h : Home} {m m' : Mem} {p : Point} (hp : Parked threadExit h m p)
    (heq : ∀ a, h.Owns a → m' a = m a) : Parked threadExit h m' p := by
  have hcell : read32 m' h.tcb.toNat = read32 m h.tcb.toNat :=
    read32_congr fun i hi hi' => heq i (.inr ⟨hi, hi'⟩)
  constructor
  · rw [hcell]
    exact hp.words.congr fun i hi hi' => heq i (.inl (hp.inside i hi hi'))
  · rw [hcell]
    exact hp.inside
  · rw [hcell]
    exact hp.top
  · intro entryPoint he
    obtain ⟨htop, hcov⟩ := hp.fresh entryPoint he
    rw [hcell]
    refine ⟨?_, hcov⟩
    rw [← htop]
    exact word_congr fun i hi hi' => heq i (.inl (hcov i (by omega) (by omega)))
  · rw [hcell]
    exact hp.suspended

theorem Good.run {s : System} (hs : Good home threadExit s) {c : Cpu}
    (h : ∀ j, s.point j ≠ none → ∀ a, (home j).Owns a → c.mem a = s.cpu.mem a) :
    Good home threadExit { s with cpu := c } := by
  refine ⟨hs.running, hs.apart, fun j p hj => (hs.parked j p hj).congr ?_⟩
  exact h j (by rw [hj]; nofun)

theorem Good.reap {s : System} (hs : Good home threadExit s) (i : ℕ) :
    Good home threadExit { s with point := Function.update s.point i none } := by
  have hsub : ∀ j, Function.update s.point i none j ≠ none → s.point j ≠ none := by
    intro j hj hnone
    by_cases hji : j = i
    · exact hj (by rw [hji, Function.update_self])
    · exact hj (by rw [Function.update_of_ne hji, hnone])
  constructor
  · by_contra hne
    exact hsub s.current hne hs.running
  · intro j k hj hk
    exact hs.apart j k (hj.imp_right (hsub j)) (hk.imp_right (hsub k))
  · intro j p hj
    apply hs.parked j p
    change Function.update s.point i none j = some p at hj
    by_cases hji : j = i
    · rw [hji, Function.update_self] at hj
      exact absurd hj nofun
    · rwa [Function.update_of_ne hji] at hj

theorem buildThread_outside {m : Mem} {h : Home} {stackBase a : ℕ} {entryPoint : Word}
    (hstack : h.Covers (stackStart stackBase) (stackStart stackBase + 28)) (ha : ¬h.Owns a) :
    buildThread m h.tcb.toNat stackBase entryPoint threadExit a = m a := by
  -- all stores go to the new stack or to the control block, and the thread owns both
  have hcell : a < h.tcb.toNat ∨ h.tcb.toNat + 4 ≤ a := by
    by_contra hcon
    exact ha (.inr (by omega))
  rw [buildThread, write32_apply_disjoint _ _ hcell]
  apply writeWords_outside
  by_contra hcon
  have hlen : (newStack entryPoint threadExit).length = 7 := rfl
  exact ha (.inl (hstack a (by omega) (by omega)))

/-- A new thread is parked at its entry point. -/
theorem buildThread_parked (m : Mem) {h : Home} {stackBase : ℕ} (entryPoint : Word)
    (hstack : h.Covers (stackStart stackBase) (stackStart stackBase + 28)) :
    Parked threadExit h (buildThread m h.tcb.toNat stackBase entryPoint threadExit)
      (.fresh entryPoint) := by
  have hend : stackStart stackBase + 27 < 2 ^ 32 :=
    h.space _ (hstack _ (Nat.le_add_right _ _) (by omega))
  have hcell := hstack.tcb (by omega)
  have hesp : read32 (buildThread m h.tcb.toNat stackBase entryPoint threadExit) h.tcb.toNat =
      stackStart stackBase := read32_write32_self _ _ (by omega)
  have hwords : Holds (buildThread m h.tcb.toNat stackBase entryPoint threadExit)
      (stackStart stackBase) (newStack entryPoint threadExit) := by
    apply (writeWords_holds m (stackStart stackBase) (newStack entryPoint threadExit)).congr
    intro i hi hi'
    have hlen : (newStack entryPoint threadExit).length = 7 := rfl
    exact write32_apply_disjoint _ _ (by omega)
  constructor
  · rw [hesp]
    intro k w hk
    have hlt : k < 6 := (List.getElem?_eq_some_iff.mp hk).1
    apply hwords k w
    rw [← hk]
    interval_cases k <;> rfl
  · rw [hesp]
    exact fun i hi hi' => hstack i hi (by omega)
  · rw [hesp]
    omega
  · rintro e he
    rw [hesp]
    exact ⟨hwords 6 threadExit rfl, hstack⟩
  · intro x esp hx
    exact absurd hx nofun

theorem System.create_point (s : System) (i stackBase : ℕ) (entryPoint : Word) :
    (s.create home threadExit i stackBase entryPoint).point =
      Function.update s.point i (some (.fresh entryPoint)) :=
  rfl

theorem Good.create {s : System} (hs : Good home threadExit s) {i : ℕ}
    (entryPoint : Word) (stackBase : ℕ) (h : Placed home s i stackBase) :
    Good home threadExit (s.create home threadExit i stackBase entryPoint) := by
  have hlive : ∀ j, (s.create home threadExit i stackBase entryPoint).Live j → j ≠ i → s.Live j := by
    intro j hj hji
    apply hj.imp_right
    intro hne
    rwa [System.create_point, Function.update_of_ne hji] at hne
  constructor
  · change (s.create home threadExit i stackBase entryPoint).point s.current = none
    rw [System.create_point, Function.update_of_ne fun hc => h.unused (.inl hc.symm)]
    exact hs.running
  · intro j k hj hk hjk
    by_cases hji : j = i
    -- the new thread's memory is apart from every other's by `Placed`
    · subst hji
      exact (h.apart k (hlive k hk (Ne.symm hjk))).1
    · by_cases hki : k = i
      · subst hki
        exact (h.apart j (hlive j hj hjk)).2
      · exact hs.apart j k (hlive j hj hji) (hlive k hk hki) hjk
  · intro j p hj
    by_cases hji : j = i
    · subst hji
      obtain rfl : Point.fresh entryPoint = p := by
        rw [System.create_point, Function.update_self] at hj
        exact Option.some.inj hj
      exact buildThread_parked s.cpu.mem entryPoint h.stack
    · rw [System.create_point, Function.update_of_ne hji] at hj
      have hjl : s.Live j := .inr (by rw [hj]; nofun)
      apply (hs.parked j p hj).congr
      intro a ha
      exact buildThread_outside h.stack fun hown => (h.apart j hjl).1 a hown ha

/-- The stack of the caller when the arguments are on it. -/
structure Argued (c : Cpu) (prev next : Word) (c' : Cpu) : Prop where
  esp : c'.esp.toNat = c.esp.toNat - 8
  words : Holds c'.mem c'.esp.toNat [prev, word c.mem next.toNat]
  outside : ∀ a, a < c.esp.toNat - 8 ∨ c.esp.toNat ≤ a → c'.mem a = c.mem a

theorem pushArguments_argued (c : Cpu) (prev next : Word) (h : 8 ≤ c.esp.toNat) :
    Argued c prev next (pushArguments c prev next) := by
  have e4 : (c.esp - 4).toNat = c.esp.toNat - 4 := toNat_esp_sub c.esp (k := 4) (by omega)
  have s8 : c.esp - 4 - 4 = c.esp - 8 := esp_sub_sub c.esp 4 4
  have e8 : (c.esp - 8).toNat = c.esp.toNat - 8 := toNat_esp_sub c.esp (k := 8) (by omega)
  have hmem : (pushArguments c prev next).mem =
      write32 (write32 c.mem (c.esp.toNat - 4) (word c.mem next.toNat).toNat) (c.esp.toNat - 8)
        prev.toNat := by
    simp only [pushArguments, Cpu.push, Cpu.load_eq, s8, e4, e8]
  have hesp : (pushArguments c prev next).esp.toNat = c.esp.toNat - 8 := by
    simp only [pushArguments, Cpu.push, s8, e8]
  constructor
  · exact hesp
  · rw [hmem, hesp]
    intro k w hk
    rcases k with _ | _ | k
    · obtain rfl := Option.some.inj hk
      exact word_write32_self _ _ _
    · obtain rfl := Option.some.inj hk
      rw [word_write32_disjoint _ _ (by omega),
        show c.esp.toNat - 8 + 4 * (0 + 1) = c.esp.toNat - 4 by omega]
      exact word_write32_self _ _ _
    · cases hk
  · intro a ha
    rw [hmem, write32_apply_disjoint _ _ (by omega), write32_apply_disjoint _ _ (by omega)]

theorem saved_outside {c : Cpu} {prev returnTo : Word} {a : ℕ}
    (h : a < c.esp.toNat - 24 ∨ c.esp.toNat ≤ a) (hroom : 24 ≤ c.esp.toNat)
    (h' : a < prev.toNat ∨ prev.toNat + 4 ≤ a) : c.saved prev returnTo a = c.mem a := by
  rw [Cpu.saved, write32_apply_disjoint _ _ h']
  apply writeWords_outside
  have hlen : (c.context returnTo).words.length = 6 := rfl
  omega

theorem System.switchTo_caller (s : System) (next : ℕ) (returnTo : Word) :
    let c := pushArguments s.cpu (home s.current).tcb (home next).tcb
    (s.switchTo home next returnTo).point s.current =
      some (.suspended (c.context returnTo) c.esp.toNat) :=
  Function.update_self ..

section Switch
variable {s : System} {next : ℕ} {returnTo : Word} {p : Point}

/-- The call, with the caller's memory it changes and the context it ends in. -/
theorem Good.callSwitch (hs : Good home threadExit s) (returnTo : Word) (hnext : s.point next = some p)
    (h : s.Room home) :
    let c := pushArguments s.cpu (home s.current).tcb (home next).tcb
    let n := read32 s.cpu.mem (home next).tcb.toNat
    Runs (s.switchTo home next returnTo).cpu p.context (n + 24) ∧
      (s.switchTo home next returnTo).cpu.mem = c.saved (home s.current).tcb returnTo := by
  intro c n
  obtain ⟨hroom, hcov⟩ := h
  have hc : Argued s.cpu (home s.current).tcb (home next).tcb c := pushArguments_argued _ _ _ (by omega)
  have hp := hs.parked next p hnext
  have hne : s.current ≠ next := by
    rintro rfl
    rw [hs.running] at hnext
    exact absurd hnext nofun
  have happ : (home s.current).Apart (home next) :=
    hs.apart _ _ (.inl rfl) (.inr (by rw [hnext]; nofun)) hne
  have hcell := hcov.tcb (by omega)
  have hstacks := hcov.apart hp.inside happ (by omega) (by omega)
  have htcb := Home.Covers.apart_tcb hp.inside (hs.apart next s.current
    (.inr (by rw [hnext]; nofun)) (.inl rfl) hne.symm) (by omega)
  have hn : (word s.cpu.mem (home next).tcb.toNat).toNat = n := toNat_word _ _
  have hlt := s.cpu.esp.isLt
  have hesp := hc.esp
  have htop := hp.top
  have key := callSwitch_runs c (home s.current).tcb
    (word s.cpu.mem (home next).tcb.toNat) returnTo (x := p.context)
    (by omega) hc.words (by omega) (by rw [hn]; exact hp.top) (by omega) (by rw [hn]; omega)
    (by rw [hn]; omega) (by
      rw [hn]
      apply hp.words.congr
      intro a ha ha'
      have hlen : p.context.words.length = 6 := rfl
      exact hc.outside a (by omega))
  rw [hn] at key
  exact key

/-- A switch stores to the caller's own memory only. -/
theorem Good.switchTo_frame (hs : Good home threadExit s) (hnext : s.point next = some p)
    (h : s.Room home) {j : ℕ} (hj : s.Live j) (hne : j ≠ s.current) {a : ℕ}
    (ha : (home j).Owns a) : (s.switchTo home next returnTo).cpu.mem a = s.cpu.mem a := by
  have hmem := (hs.callSwitch returnTo hnext h).2
  have hc := pushArguments_argued s.cpu (home s.current).tcb (home next).tcb (by have := h.1; omega)
  have hesp := hc.esp
  have hroom := h.1
  have hout : ¬(home s.current).Owns a := fun hown => hs.apart _ _ (.inl rfl) hj hne.symm a hown ha
  have hstack : a < s.cpu.esp.toNat - 32 ∨ s.cpu.esp.toNat ≤ a := by
    by_contra hcon
    exact hout (.inl (h.2 a (by omega) (by omega)))
  have hcell : a < (home s.current).tcb.toNat ∨ (home s.current).tcb.toNat + 4 ≤ a := by
    by_contra hcon
    exact hout (.inr (by omega))
  rw [hmem, saved_outside (by omega) (by omega) hcell]
  exact hc.outside a (by omega)

/-- The thread that gets the processor goes on where it was. -/
theorem Good.resumes (hs : Good home threadExit s) (hnext : s.point next = some p)
    (h : s.Room home) : Resumes threadExit (s.switchTo home next returnTo).cpu p := by
  obtain ⟨hruns, hmem⟩ := hs.callSwitch returnTo hnext h
  have hp := hs.parked next p hnext
  cases p with
  | suspended x esp =>
    obtain ⟨hlegal, htop⟩ := hp.suspended x esp rfl
    exact ⟨hruns.eip, hruns.eflags.trans hlegal, hruns.ebp, hruns.ebx, hruns.esi, hruns.edi,
      hruns.esp.trans htop⟩
  | fresh entryPoint =>
    obtain ⟨hexit, hcov'⟩ := hp.fresh entryPoint rfl
    -- a new thread finds `thread_exit` where a caller would have put its return address
    have hflags : legalFlags 0x202 = 0x202 := by decide
    refine ⟨hruns.eip, hruns.eflags.trans hflags, hruns.ebp, hruns.ebx, hruns.esi, hruns.edi, ?_⟩
    rw [Cpu.load_eq, hruns.esp, ← hexit]
    have hne : next ≠ s.current := by
      rintro rfl
      rw [hs.running] at hnext
      exact absurd hnext nofun
    apply word_congr
    intro i hi hi'
    exact hs.switchTo_frame hnext h (.inr (by rw [hnext]; nofun)) hne
      (.inl (hcov' i (by omega) (by omega)))

/-- The caller is parked where it made the call. -/
theorem Good.parked_caller (hs : Good home threadExit s) (hnext : s.point next = some p)
    (h : s.Room home) :
    let c := pushArguments s.cpu (home s.current).tcb (home next).tcb
    Parked threadExit (home s.current) (s.switchTo home next returnTo).cpu.mem
      (.suspended (c.context returnTo) c.esp.toNat) := by
  intro c
  have hmem := (hs.callSwitch returnTo hnext h).2
  obtain ⟨hroom, hcov⟩ := h
  have hc : Argued s.cpu (home s.current).tcb (home next).tcb c := pushArguments_argued _ _ _ (by omega)
  have hesp := hc.esp
  have hlt := s.cpu.esp.isLt
  have hcell := hcov.tcb (by omega)
  have hread : read32 (s.switchTo home next returnTo).cpu.mem (home s.current).tcb.toNat =
      c.esp.toNat - 24 := by
    rw [hmem]
    exact read32_write32_self _ _ (by omega)
  constructor
  · rw [hread, hmem]
    apply (writeWords_holds c.mem (c.esp.toNat - 24) (c.context returnTo).words).congr
    intro i hi hi'
    have hlen : (c.context returnTo).words.length = 6 := rfl
    exact write32_apply_disjoint _ _ (by omega)
  · rw [hread]
    exact fun i hi hi' => hcov i (by omega) (by omega)
  · rw [hread]
    omega
  · intro entryPoint he
    exact absurd he nofun
  · rintro x esp he
    injection he with hx he
    subst hx he
    rw [hread]
    exact ⟨c.eflags.legal, by omega⟩

theorem Good.switch (hs : Good home threadExit s) (hnext : s.point next = some p)
    (h : s.Room home) : Good home threadExit (s.switchTo home next returnTo) := by
  have hne : next ≠ s.current := by
    rintro rfl
    rw [hs.running] at hnext
    exact absurd hnext nofun
  have hpoint : ∀ j, j ≠ s.current → j ≠ next →
      (s.switchTo home next returnTo).point j = s.point j := by
    intro j hj hj'
    change Function.update (Function.update s.point next none) s.current _ j = _
    rw [Function.update_of_ne hj, Function.update_of_ne hj']
  have hidle : (s.switchTo home next returnTo).point next = none := by
    change Function.update (Function.update s.point next none) s.current _ next = _
    rw [Function.update_of_ne hne, Function.update_self]
  have hlive : ∀ j, (s.switchTo home next returnTo).Live j → s.Live j := by
    intro j hj
    by_cases hjc : j = s.current
    · exact .inl hjc
    · by_cases hjn : j = next
      · exact .inr (by rw [hjn, hnext]; nofun)
      · obtain hj | hj := hj
        · exact absurd hj hjn
        · exact .inr (by rwa [hpoint j hjc hjn] at hj)
  constructor
  · exact hidle
  · intro i j hi hj
    exact hs.apart i j (hlive i hi) (hlive j hj)
  · intro j q hj
    by_cases hjc : j = s.current
    · subst hjc
      rw [System.switchTo_caller] at hj
      rw [← Option.some.inj hj]
      exact hs.parked_caller hnext h
    · by_cases hjn : j = next
      · rw [hjn, hidle] at hj
        exact absurd hj nofun
      · rw [hpoint j hjc hjn] at hj
        apply (hs.parked j q hj).congr
        intro a ha
        exact hs.switchTo_frame hnext h (.inr (by rw [hj]; nofun)) hjc ha

end Switch

theorem Good.step {s s' : System} (hs : Good home threadExit s) (h : Step home threadExit s s') :
    Good home threadExit s' := by
  cases h with
  | run c hmem => exact hs.run hmem
  | create i stackBase entryPoint hplaced => exact hs.create entryPoint stackBase hplaced
  | reap i => exact hs.reap i
  | switch next returnTo hnext hroom =>
    obtain ⟨p, hp⟩ := Option.ne_none_iff_exists'.mp hnext
    exact hs.switch hp hroom

/-- The three threads that `initialize_multitasking` starts from have memory of their own. -/
structure Start (home : ℕ → Home) (idleStackBase cleanerStackBase : ℕ) : Prop where
  apart : ∀ i < 3, ∀ j < 3, i ≠ j → (home i).Apart (home j)
  idle : (home 1).Covers (stackStart idleStackBase) (stackStart idleStackBase + 28)
  cleaner : (home 2).Covers (stackStart cleanerStackBase) (stackStart cleanerStackBase + 28)

theorem boot_good {idleStackBase cleanerStackBase : ℕ}
    (h : Start home idleStackBase cleanerStackBase) (c : Cpu) (idleThreadMethod cleanerTask : Word) :
    Good home threadExit
      (.boot home threadExit c idleStackBase cleanerStackBase idleThreadMethod cleanerTask) := by
  let s₀ : System := ⟨c, 0, fun _ => none⟩
  have live₀ : ∀ j, s₀.Live j → j = 0 := fun j hj => hj.resolve_right fun hn => hn rfl
  have hs₀ : Good home threadExit s₀ := by
    refine ⟨rfl, fun i j hi hj hij => ?_, fun j p hj => absurd hj nofun⟩
    exact absurd ((live₀ i hi).trans (live₀ j hj).symm) hij
  have hs₁ := hs₀.create idleThreadMethod (i := 1) idleStackBase
    ⟨fun hl => absurd (live₀ 1 hl) (by decide), fun j hj => by
      rw [live₀ j hj]
      exact ⟨h.apart 1 (by omega) 0 (by omega) (by omega),
        h.apart 0 (by omega) 1 (by omega) (by omega)⟩, h.idle⟩
  have live₁ : ∀ j, (s₀.create home threadExit 1 idleStackBase idleThreadMethod).Live j → j < 2 := by
    rintro j (hj | hj)
    · rw [show j = 0 from hj]
      omega
    · by_contra hlt
      rw [System.create_point, Function.update_of_ne (by omega)] at hj
      exact hj rfl
  exact hs₁.create cleanerTask (i := 2) cleanerStackBase
    ⟨fun hl => absurd (live₁ 2 hl) (by omega), fun j hj => by
      have hlt := live₁ j hj
      exact ⟨h.apart 2 (by omega) j (by omega) (by omega),
        h.apart j (by omega) 2 (by omega) (by omega)⟩, h.cleaner⟩

theorem Good.follow {s s' : System} (hs : Good home threadExit s)
    (h : Relation.ReflTransGen (Step home threadExit) s s') : Good home threadExit s' := by
  induction h with
  | refl => exact hs
  | tail _ hstep ih => exact ih.step hstep

/-- A step in which thread `t` stays switched out. -/
def Away (home : ℕ → Home) (threadExit : Word) (t : ℕ) (s s' : System) : Prop :=
  Step home threadExit s s' ∧ s'.current ≠ t ∧ s'.point t ≠ none

theorem Away.point_eq {t : ℕ} {s s' : System} (h : Away home threadExit t s s')
    (ht : s.current ≠ t) (hp : s.point t ≠ none) : s'.point t = s.point t := by
  obtain ⟨hstep, hcur, hpoint⟩ := h
  cases hstep with
  | run c hmem => rfl
  | create i stackBase entryPoint hplaced =>
    have hti : t ≠ i := by
      rintro rfl
      exact hplaced.unused (.inr hp)
    rw [System.create_point, Function.update_of_ne hti]
  | reap i =>
    have hti : t ≠ i := by
      rintro rfl
      exact hpoint (Function.update_self ..)
    exact Function.update_of_ne hti ..
  | switch next returnTo hnext hroom =>
    have htn : t ≠ next := Ne.symm hcur
    change Function.update (Function.update s.point next none) s.current _ t = _
    rw [Function.update_of_ne ht.symm, Function.update_of_ne htn]

theorem away_point {t : ℕ} {s s' : System} (ht : s.current ≠ t) (hp : s.point t ≠ none)
    (h : Relation.ReflTransGen (Away home threadExit t) s s') :
    s'.current ≠ t ∧ s'.point t = s.point t := by
  induction h with
  | refl => exact ⟨ht, rfl⟩
  | tail _ hstep ih =>
    obtain ⟨hcur, heq⟩ := ih
    refine ⟨hstep.2.1, ?_⟩
    rw [hstep.point_eq hcur (by rw [heq]; exact hp), heq]

/-- In every run from `initialize_multitasking` on, a thread that is switched in
starts at its entry point or goes on from its record, and the record of a thread
that has called `switch_to_task` is what it had at the call, for as long as it is
switched out. -/
theorem switch_fidelity (home : ℕ → Home) (threadExit : Word) (c : Cpu)
    (idleStackBase cleanerStackBase : ℕ) (idleThreadMethod cleanerTask : Word)
    (hstart : Start home idleStackBase cleanerStackBase) (s : System)
    (hrun : Relation.ReflTransGen (Step home threadExit)
      (.boot home threadExit c idleStackBase cleanerStackBase idleThreadMethod cleanerTask) s)
    (next : ℕ) (p : Point) (hnext : s.point next = some p) (hroom : s.Room home) (returnTo : Word) :
    Resumes threadExit (s.switchTo home next returnTo).cpu p ∧
      ∀ s', Relation.ReflTransGen (Away home threadExit s.current)
          (s.switchTo home next returnTo) s' →
        let c := pushArguments s.cpu (home s.current).tcb (home next).tcb
        s'.point s.current = some (.suspended (c.context returnTo) c.esp.toNat) := by
  have hgood := (boot_good hstart c idleThreadMethod cleanerTask).follow hrun
  refine ⟨hgood.resumes hnext hroom, fun s' hs' => ?_⟩
  have hne : next ≠ s.current := by
    rintro rfl
    rw [hgood.running] at hnext
    exact absurd hnext nofun
  have hcaller := @System.switchTo_caller home s next returnTo
  rw [(away_point hne (by rw [hcaller]; nofun) hs').2, hcaller]

/-- Threads 0, 1, 2, … with their control blocks at 64, 128, … and a stack of two
pages each, 16 KiB apart. -/
def sampleHome (i : ℕ) : Home where
  tcb := BitVec.ofNat 32 (64 * (i % 64 + 1))
  stack := { a | 16384 * (i % 64 + 1) ≤ a ∧ a < 16384 * (i % 64 + 1) + 8192 }
  space := by
    rintro a ⟨h, h'⟩
    omega
  apart := by
    rintro a ⟨h, h'⟩
    have hlt : 64 * (i % 64 + 1) < 2 ^ 32 := by omega
    rw [BitVec.toNat_ofNat, Nat.mod_eq_of_lt hlt]
    omega

theorem sampleHome_tcb (i : ℕ) : (sampleHome i).tcb.toNat = 64 * (i % 64 + 1) := by
  have hlt : 64 * (i % 64 + 1) < 2 ^ 32 := by omega
  exact Nat.mod_eq_of_lt hlt

theorem sampleHome_apart {i j : ℕ} (h : i % 64 ≠ j % 64) : (sampleHome i).Apart (sampleHome j) := by
  have hi := sampleHome_tcb i
  have hj := sampleHome_tcb j
  rintro a (⟨h1, h2⟩ | ⟨h1, h2⟩) (⟨h3, h4⟩ | ⟨h3, h4⟩) <;> omega

theorem sampleHome_covers (i : ℕ) {a b : ℕ} (ha : 16384 * (i % 64 + 1) ≤ a)
    (hb : b ≤ 16384 * (i % 64 + 1) + 8192) : (sampleHome i).Covers a b :=
  fun _ h h' => ⟨ha.trans h, h'.trans_le hb⟩

theorem sampleHome_start : Start sampleHome (16384 * 2) (16384 * 3) where
  apart := fun i hi j hj hij => sampleHome_apart (by omega)
  idle := sampleHome_covers 1 (by decide) (by decide)
  cleaner := sampleHome_covers 2 (by decide) (by decide)

def sampleCpu : Cpu := ⟨fun _ => 7, 16384 + 4096, 0x100000, .load 0x246, fun _ => 0⟩

def sampleBoot : System :=
  .boot sampleHome 0x5000 sampleCpu (16384 * 2) (16384 * 3) 0x6000 0x7000

/-- The first switch, from the root thread into the idle thread. -/
theorem switch_fidelity_sample :
    Resumes 0x5000 (sampleBoot.switchTo sampleHome 1 0x8000).cpu (.fresh 0x6000) :=
  (switch_fidelity sampleHome 0x5000 sampleCpu (16384 * 2) (16384 * 3) 0x6000 0x7000
    sampleHome_start sampleBoot .refl 1 (.fresh 0x6000) rfl
    ⟨by decide, sampleHome_covers 0 (by decide) (by decide)⟩ 0x8000).1

end Runs
end KallarOS.Task
