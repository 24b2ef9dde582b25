import KallarOS.TaskRuns

namespace KallarOS.Task
open ByteMemory Relation

/-- The machine of an interrupt stub: `ecx`, `edx` and `cs` beside what `switch_to_task`
works on. -/
structure Machine where
  cpu : Cpu
  ecx : Word
  edx : Word
  cs : BitVec 16

def pushAll (c : Cpu) (ws : List Word) : Cpu := ws.foldl Cpu.push c

namespace Machine

/-- An interrupt through an interrupt gate: IF, TF and NT are cleared. -/
def interrupt (m : Machine) (isr : Word) : Machine :=
  { m with
    cpu := { pushAll m.cpu [m.cpu.eflags.word, m.cs.setWidth 32, m.cpu.eip] with
      eflags := .load (m.cpu.eflags.word &&& ~~~0x4300)
      eip := isr }
    cs := 0x08 }

/-- What `pushad` pushes, in its order. -/
def registers (m : Machine) : List Word :=
  [m.cpu.reg .eax, m.ecx, m.edx, m.cpu.reg .ebx, m.cpu.esp, m.cpu.reg .ebp, m.cpu.reg .esi,
    m.cpu.reg .edi]

end Machine

inductive StubInstr where
  | pushad
  | cld
  | push (n : Word)
  /-- with the address behind it -/
  | call (target returnTo : Word)
  | addEsp (n : Word)
  | popad
  | iretd
deriving Repr, DecidableEq

namespace Machine

def exec (m : Machine) : StubInstr → Machine
  | .pushad => { m with cpu := pushAll m.cpu m.registers }
  | .cld => { m with cpu := { m.cpu with eflags := .load (m.cpu.eflags.word &&& ~~~0x400) } }
  | .push n => { m with cpu := m.cpu.push n }
  | .call target returnTo => { m with cpu := { m.cpu.push returnTo with eip := target } }
  | .addEsp n => { m with cpu := { m.cpu with esp := m.cpu.esp + n } }
  | .popad => { m with
      cpu := { m.cpu with
        reg := fun
          | .edi => m.cpu.load m.cpu.esp
          | .esi => m.cpu.load (m.cpu.esp + 4)
          | .ebp => m.cpu.load (m.cpu.esp + 8)
          -- the stack pointer in between is skipped
          | .ebx => m.cpu.load (m.cpu.esp + 16)
          | .eax => m.cpu.load (m.cpu.esp + 28)
        esp := m.cpu.esp + 32 }
      edx := m.cpu.load (m.cpu.esp + 20)
      ecx := m.cpu.load (m.cpu.esp + 24) }
  | .iretd => { m with
      cpu := { m.cpu with
        eip := m.cpu.load m.cpu.esp
        eflags := .load (m.cpu.load (m.cpu.esp + 8))
        esp := m.cpu.esp + 12 }
      cs := (m.cpu.load (m.cpu.esp + 4)).setWidth 16 }

end Machine

/-- `isr_apic_timer` and the stubs of the macro `irq_stub`. -/
inductive Stub where
  | isrApicTimer
  | irqStub (n : Word)
deriving Repr, DecidableEq

def Stub.code (handler returnTo : Word) : Stub → List StubInstr
  | .isrApicTimer => [.pushad, .cld, .call handler returnTo, .popad, .iretd]
  | .irqStub n => [.pushad, .push n, .call handler returnTo, .addEsp 4, .popad, .iretd]

/-- The arguments that a stub pushes for its handler. -/
def Stub.arguments : Stub → List Word
  | .isrApicTimer => []
  | .irqStub n => [n]

/-- From the interrupt to the first instruction of the handler. -/
def Stub.enter (b : Stub) (isr handler returnTo : Word) (m : Machine) : Machine :=
  ((b.code handler returnTo).take 3).foldl Machine.exec (m.interrupt isr)

/-- From the return of the handler to the interrupted instruction. -/
def Stub.leave (b : Stub) (handler returnTo : Word) (m : Machine) : Machine :=
  ((b.code handler returnTo).drop 3).foldl Machine.exec m

/-- The words an interrupt leaves on the stack, the last one pushed first. -/
def Machine.frame (m : Machine) : List Word :=
  [m.cpu.reg .edi, m.cpu.reg .esi, m.cpu.reg .ebp, m.cpu.esp - 12, m.cpu.reg .ebx, m.edx, m.ecx,
    m.cpu.reg .eax, m.cpu.eip, m.cs.setWidth 32, m.cpu.eflags.word]

section Pushes

variable {c : Cpu} {ws : List Word}

/-- `ws` has been pushed on the stack of `c`. -/
structure Pushed (c : Cpu) (ws : List Word) (c' : Cpu) : Prop where
  esp : c'.esp = c.esp - BitVec.ofNat 32 (4 * ws.length)
  words : Holds c'.mem (c.esp.toNat - 4 * ws.length) ws.reverse
  outside : ∀ a, a < c.esp.toNat - 4 * ws.length ∨ c.esp.toNat ≤ a → c'.mem a = c.mem a
  reg : c'.reg = c.reg

theorem Holds.append {m : Mem} {a : ℕ} {us vs : List Word} (hu : Holds m a us)
    (hv : Holds m (a + 4 * us.length) vs) : Holds m a (us ++ vs) := by
  intro k w hk
  by_cases hlt : k < us.length
  · rw [List.getElem?_append_left hlt] at hk
    exact hu k w hk
  · rw [List.getElem?_append_right (by omega)] at hk
    have h := hv _ w hk
    rwa [show a + 4 * us.length + 4 * (k - us.length) = a + 4 * k by omega] at h

theorem holds_single {m : Mem} {a : ℕ} {w : Word} (h : word m a = w) : Holds m a [w] := by
  intro k v hk
  cases k with
  | zero => exact h.trans (Option.some.inj hk)
  | succ k => cases hk

theorem pushAll_pushed (c : Cpu) (ws : List Word) (h : 4 * ws.length ≤ c.esp.toNat) :
    Pushed c ws (pushAll c ws) := by
  induction ws generalizing c with
  | nil => exact ⟨(BitVec.sub_zero c.esp).symm, fun k w hk => absurd hk (by simp), fun _ _ => rfl, rfl⟩
  | cons w ws ih =>
    rw [List.length_cons] at h
    have e4 : (c.esp - 4).toNat = c.esp.toNat - 4 := toNat_esp_sub c.esp (k := 4) (by omega)
    have hesp : (c.push w).esp.toNat = c.esp.toNat - 4 := e4
    have hmem : (c.push w).mem = write32 c.mem (c.esp.toNat - 4) w.toNat := by rw [← e4]; rfl
    have hp := ih (c.push w) (by omega)
    have hlow : c.esp.toNat - 4 - 4 * ws.length = c.esp.toNat - 4 * (w :: ws).length := by
      rw [List.length_cons]
      omega
    constructor
    · change (pushAll (c.push w) ws).esp = _
      rw [hp.esp]
      change c.esp - BitVec.ofNat 32 4 - _ = _
      rw [esp_sub_sub, List.length_cons, Nat.mul_succ, Nat.add_comm]
    · change Holds (pushAll (c.push w) ws).mem _ _
      rw [List.reverse_cons, ← hlow, ← hesp]
      apply hp.words.append
      apply holds_single
      have hw : word (c.push w).mem (c.esp.toNat - 4) = w := by
        rw [hmem]
        exact word_write32_self _ _ _
      rw [List.length_reverse, Nat.sub_add_cancel (by omega), hesp]
      exact (word_congr fun i hi _ => hp.outside i (.inr (by omega))).trans hw
    · intro a ha
      rw [List.length_cons] at ha
      change (pushAll (c.push w) ws).mem a = _
      rw [hp.outside a (by omega), hmem, write32_apply_disjoint _ _ (by omega)]
    · exact hp.reg

theorem Pushed.append {c' c'' : Cpu} {vs : List Word} (h : Pushed c ws c') (h' : Pushed c' vs c'')
    (hroom : 4 * (ws ++ vs).length ≤ c.esp.toNat) : Pushed c (ws ++ vs) c'' := by
  rw [List.length_append] at hroom
  have hmid : c'.esp.toNat = c.esp.toNat - 4 * ws.length := by
    rw [h.esp]
    exact toNat_esp_sub c.esp (by omega)
  have hlow : c'.esp.toNat - 4 * vs.length = c.esp.toNat - 4 * (ws ++ vs).length := by
    rw [List.length_append]
    omega
  constructor
  · rw [h'.esp, h.esp, esp_sub_sub, List.length_append, Nat.mul_add]
  · rw [List.reverse_append, ← hlow]
    apply h'.words.append
    rw [List.length_reverse, Nat.sub_add_cancel (by omega), hmid]
    apply h.words.congr
    intro i hi _
    exact h'.outside i (.inr (by omega))
  · intro a ha
    rw [List.length_append] at ha
    rw [h'.outside a (by omega), h.outside a (by omega)]
  · exact h'.reg.trans h.reg

theorem push_pushed (c : Cpu) (w : Word) (h : 4 ≤ c.esp.toNat) : Pushed c [w] (c.push w) :=
  pushAll_pushed c [w] h

end Pushes

section Stubs

variable {m d : Machine} {b : Stub} {isr handler returnTo : Word}

/-- All that the handler finds below the stack pointer of the interrupted code. -/
def Machine.entered (m : Machine) (b : Stub) (returnTo : Word) : List Word :=
  m.frame.reverse ++ b.arguments ++ [returnTo]

theorem legalFlags_interrupts (w : Word) : (legalFlags w).getLsbD 9 = w.getLsbD 9 := by
  have hmask : flagMask.getLsbD 9 = true := by decide
  have hone : (0x2 : Word).getLsbD 9 = false := by decide
  rw [legalFlags, BitVec.getLsbD_or, BitVec.getLsbD_and, hmask, hone, Bool.and_true, Bool.or_false]

theorem cleared_interrupts (w mask : Word) (h : mask.getLsbD 9 = true) :
    (legalFlags (w &&& ~~~mask)).getLsbD 9 = false := by
  rw [legalFlags_interrupts, BitVec.getLsbD_and, BitVec.getLsbD_not, h]
  simp

/-- What a handler starts from. -/
structure Entered (m : Machine) (b : Stub) (handler returnTo : Word) (m₁ : Machine) : Prop where
  pushed : Pushed m.cpu (m.entered b returnTo) m₁.cpu
  eip : m₁.cpu.eip = handler
  masked : m₁.cpu.eflags.word.getLsbD 9 = false

theorem interrupt_pushed (isr : Word) (h : 12 ≤ m.cpu.esp.toNat) :
    Pushed m.cpu [m.cpu.eflags.word, m.cs.setWidth 32, m.cpu.eip] (m.interrupt isr).cpu := by
  have hp := pushAll_pushed m.cpu [m.cpu.eflags.word, m.cs.setWidth 32, m.cpu.eip] h
  exact ⟨hp.esp, hp.words, hp.outside, hp.reg⟩

theorem registers_interrupt (isr : Word) (h : 12 ≤ m.cpu.esp.toNat) :
    [m.cpu.eflags.word, m.cs.setWidth 32, m.cpu.eip] ++ (m.interrupt isr).registers = m.frame.reverse := by
  have hi := interrupt_pushed (m := m) isr h
  have hesp : (m.interrupt isr).cpu.esp = m.cpu.esp - 12 := hi.esp
  rw [Machine.registers, hi.reg, hesp]
  rfl

/-- The interrupt and the `pushad` of the stub leave the frame. -/
theorem pushad_pushed (isr : Word) (h : 44 ≤ m.cpu.esp.toNat) :
    Pushed m.cpu m.frame.reverse ((m.interrupt isr).exec .pushad).cpu := by
  have hi := interrupt_pushed (m := m) isr (by omega)
  have hesp : (m.interrupt isr).cpu.esp.toNat = m.cpu.esp.toNat - 12 := by
    rw [hi.esp]
    exact toNat_esp_sub m.cpu.esp (k := 12) (by omega)
  have hp : Pushed (m.interrupt isr).cpu (m.interrupt isr).registers ((m.interrupt isr).exec .pushad).cpu :=
    pushAll_pushed _ _ (by change 32 ≤ _; omega)
  rw [← registers_interrupt isr (by omega)]
  exact hi.append hp h

theorem call_pushed (target : Word) (h : 4 ≤ m.cpu.esp.toNat) :
    Pushed m.cpu [returnTo] (m.exec (.call target returnTo)).cpu := by
  have hp := push_pushed m.cpu returnTo h
  exact ⟨hp.esp, hp.words, hp.outside, hp.reg⟩

theorem pushad_masked (isr : Word) :
    ((m.interrupt isr).exec .pushad).cpu.eflags.word = legalFlags (m.cpu.eflags.word &&& ~~~0x4300) := rfl

theorem enter_entered (b : Stub) (isr handler returnTo : Word) (m : Machine)
    (h : 4 * (m.entered b returnTo).length ≤ m.cpu.esp.toNat) :
    Entered m b handler returnTo (b.enter isr handler returnTo m) := by
  have hframe : m.frame.reverse.length = 11 := rfl
  have hlen : (m.entered b returnTo).length = 11 + b.arguments.length + 1 := by
    rw [Machine.entered, List.length_append, List.length_append, hframe]
    rfl
  have hpush := pushad_pushed (m := m) isr (by omega)
  have hmask := pushad_masked (m := m) isr
  have hesp : ((m.interrupt isr).exec .pushad).cpu.esp.toNat = m.cpu.esp.toNat - 44 := by
    rw [hpush.esp]
    exact toNat_esp_sub m.cpu.esp (k := 44) (by omega)
  cases b with
  | isrApicTimer =>
    have henter : Stub.isrApicTimer.enter isr handler returnTo m =
      (((m.interrupt isr).exec .pushad).exec .cld).exec (.call handler returnTo) := rfl
    rw [henter]
    generalize (m.interrupt isr).exec .pushad = d at hpush hmask hesp
    have hcall : Pushed d.cpu [returnTo] (d.exec (.call handler returnTo)).cpu :=
      call_pushed handler (by omega)
    have hp : Pushed d.cpu [returnTo] ((d.exec .cld).exec (.call handler returnTo)).cpu :=
      ⟨hcall.esp, hcall.words, hcall.outside, hcall.reg⟩
    refine ⟨hpush.append hp (by rw [List.length_append, hframe]; exact h), rfl, ?_⟩
    change (legalFlags (d.cpu.eflags.word &&& ~~~0x400)).getLsbD 9 = false
    rw [legalFlags_interrupts, BitVec.getLsbD_and, hmask, cleared_interrupts _ _ (by decide), Bool.false_and]
  | irqStub n =>
    have henter : (Stub.irqStub n).enter isr handler returnTo m =
      (((m.interrupt isr).exec .pushad).exec (.push n)).exec (.call handler returnTo) := rfl
    rw [henter]
    generalize (m.interrupt isr).exec .pushad = d at hpush hmask hesp
    have hn : Pushed d.cpu [n] (d.exec (.push n)).cpu := push_pushed d.cpu n (by omega)
    have h52 : 52 ≤ m.cpu.esp.toNat := h
    have hpn := hpush.append hn (by rw [List.length_append, hframe]; change 48 ≤ _; omega)
    have hesp' : (d.exec (.push n)).cpu.esp.toNat = m.cpu.esp.toNat - 48 := by
      rw [hpn.esp]
      exact toNat_esp_sub m.cpu.esp (k := 48) (by omega)
    have hcall : Pushed (d.exec (.push n)).cpu [returnTo]
        ((d.exec (.push n)).exec (.call handler returnTo)).cpu := call_pushed handler (by omega)
    refine ⟨hpn.append hcall (by rw [List.length_append, List.length_append, hframe]; exact h), rfl, ?_⟩
    change d.cpu.eflags.word.getLsbD 9 = false
    rw [hmask, cleared_interrupts _ _ (by decide)]

/-- The machine goes on as if it had not been interrupted. -/
structure Restored (m m' : Machine) : Prop where
  reg : m'.cpu.reg = m.cpu.reg
  ecx : m'.ecx = m.ecx
  edx : m'.edx = m.edx
  esp : m'.cpu.esp = m.cpu.esp
  eip : m'.cpu.eip = m.cpu.eip
  cs : m'.cs = m.cs
  eflags : m'.cpu.eflags = m.cpu.eflags

theorem load_word (f : Flags) : Flags.load f.word = f := by
  obtain ⟨w, hw⟩ := f
  simp [Flags.load, hw]

/-- `popad` and `iretd` take the frame back. -/
theorem pop_frame (hesp : d.cpu.esp = m.cpu.esp - 44) (hroom : 44 ≤ m.cpu.esp.toNat)
    (hf : Holds d.cpu.mem (m.cpu.esp.toNat - 44) m.frame) :
    Restored m ((d.exec .popad).exec .iretd) ∧ ((d.exec .popad).exec .iretd).cpu.mem = d.cpu.mem := by
  have hlt := m.cpu.esp.isLt
  have e0 : d.cpu.esp.toNat = m.cpu.esp.toNat - 44 := by
    rw [hesp]
    exact toNat_esp_sub m.cpu.esp (k := 44) hroom
  have hload : ∀ k < 11, ∀ w, m.frame[k]? = some w →
      d.cpu.load (d.cpu.esp + BitVec.ofNat 32 (4 * k)) = w := by
    intro k hk w hw
    rw [Cpu.load_eq, toNat_esp_add d.cpu.esp (k := 4 * k) (by omega), e0]
    exact hf k w hw
  have s36 : d.cpu.esp + 32 + 4 = d.cpu.esp + 36 := esp_add_add d.cpu.esp 32 4
  have s40 : d.cpu.esp + 32 + 8 = d.cpu.esp + 40 := esp_add_add d.cpu.esp 32 8
  have hedi : d.cpu.load d.cpu.esp = m.cpu.reg .edi := by
    have h0 := hload 0 (by decide) _ rfl
    rwa [show d.cpu.esp + BitVec.ofNat 32 (4 * 0) = d.cpu.esp from BitVec.add_zero _] at h0
  have hreg : ((d.exec .popad).exec .iretd).cpu.reg = m.cpu.reg := by
    funext r
    cases r with
    | eax => exact hload 7 (by decide) _ rfl
    | ebx => exact hload 4 (by decide) _ rfl
    | esi => exact hload 1 (by decide) _ rfl
    | edi => exact hedi
    | ebp => exact hload 2 (by decide) _ rfl
  refine ⟨⟨hreg, hload 6 (by decide) _ rfl, hload 5 (by decide) _ rfl, ?_, hload 8 (by decide) _ rfl,
    ?_, ?_⟩, rfl⟩
  · change d.cpu.esp + 32 + 12 = m.cpu.esp
    rw [hesp]
    bv_omega
  · change (d.cpu.load (d.cpu.esp + 32 + 4)).setWidth 16 = m.cs
    have h36 : d.cpu.load (d.cpu.esp + 36) = m.cs.setWidth 32 := hload 9 (by decide) _ rfl
    rw [s36, h36]
    simp
  · change Flags.load (d.cpu.load (d.cpu.esp + 32 + 8)) = m.cpu.eflags
    have h40 : d.cpu.load (d.cpu.esp + 40) = m.cpu.eflags.word := hload 10 (by decide) _ rfl
    rw [s40, h40, load_word]

theorem leave_restored (hroom : 48 ≤ m.cpu.esp.toNat)
    (hesp : d.cpu.esp = m.cpu.esp - BitVec.ofNat 32 (44 + 4 * b.arguments.length))
    (hf : Holds d.cpu.mem (m.cpu.esp.toNat - 44) m.frame) :
    Restored m (b.leave handler returnTo d) ∧ (b.leave handler returnTo d).cpu.mem = d.cpu.mem := by
  cases b with
  | isrApicTimer => exact pop_frame hesp (by omega) hf
  | irqStub n =>
    have hadd : (d.exec (.addEsp 4)).cpu.esp = m.cpu.esp - 44 := by
      change d.cpu.esp + 4 = _
      rw [hesp]
      change m.cpu.esp - 48 + 4 = m.cpu.esp - 44
      bv_omega
    exact pop_frame hadd (by omega) hf

end Stubs

section Handlers
variable (home : ℕ → Home) (threadExit : Word)

/-- A step while thread `t` is inside the handler of an interrupt, whose own frames end at
`top`. The code of the handler leaves the stack from there on alone. -/
structure Handling (t top : ℕ) (s s' : System) : Prop where
  step : Step home threadExit s s'
  live : s'.Live t
  confined : s.current = t → s'.current = t → s'.cpu.esp.toNat ≤ top ∧
    ∀ a ∈ (home t).stack, top ≤ a → s'.cpu.mem a = s.cpu.mem a

/-- What stays true of the interrupted code, whoever runs. -/
structure Inside (t top : ℕ) (m₀ : Mem) (s : System) : Prop where
  good : Good home threadExit s
  memory : ∀ a ∈ (home t).stack, top ≤ a → s.cpu.mem a = m₀ a
  running : s.current = t → s.cpu.esp.toNat ≤ top
  away : s.current ≠ t → ∃ x esp, s.point t = some (.suspended x esp) ∧ esp ≤ top

variable {home threadExit} {t top : ℕ} {m₀ : Mem} {s s' : System}

theorem Inside.live (h : Inside home threadExit t top m₀ s) : s.Live t := by
  by_cases hc : s.current = t
  · exact .inl hc.symm
  · obtain ⟨x, esp, hp, -⟩ := h.away hc
    exact .inr (by rw [hp]; nofun)

/-- Switching away stores below the frames of the handler. -/
theorem Inside.switch_away (h : Inside home threadExit t top m₀ s) (hc : s.current = t) {next : ℕ}
    {p : Point} (returnTo : Word) (hnext : s.point next = some p) (hroom : s.Room home) :
    ∀ a ∈ (home t).stack, top ≤ a → (s.switchTo home next returnTo).cpu.mem a = m₀ a := by
  intro a ha hle
  have hesp := h.running hc
  have h32 := hroom.1
  have hmem := (h.good.callSwitch returnTo hnext hroom).2
  have harg := pushArguments_argued s.cpu (home s.current).tcb (home next).tcb (by omega)
  have hcell : a < (home s.current).tcb.toNat ∨ (home s.current).tcb.toNat + 4 ≤ a := by
    rw [hc]
    exact (home t).apart a ha
  have hesp' := harg.esp
  rw [hmem, saved_outside (by omega) (by omega) hcell, harg.outside a (by omega)]
  exact h.memory a ha hle

theorem Inside.switch (h : Inside home threadExit t top m₀ s) {next : ℕ} (returnTo : Word)
    (hnext : s.point next ≠ none) (hroom : s.Room home) :
    Inside home threadExit t top m₀ (s.switchTo home next returnTo) := by
  obtain ⟨p, hp⟩ := Option.ne_none_iff_exists'.mp hnext
  have hgood : Good home threadExit (s.switchTo home next returnTo) := h.good.switch hp hroom
  have hne : next ≠ s.current := by
    rintro rfl
    rw [h.good.running] at hp
    cases hp
  by_cases hc : s.current = t
  · refine ⟨hgood, h.switch_away hc returnTo hp hroom, fun hn => absurd (hn.trans hc.symm) hne, fun _ => ?_⟩
    have hcaller := @System.switchTo_caller home s next returnTo
    have harg := pushArguments_argued s.cpu (home s.current).tcb (home next).tcb (by have := hroom.1; omega)
    have hesp := harg.esp
    have hle := h.running hc
    rw [hc] at hcaller
    exact ⟨_, _, hcaller, by rw [hc] at hesp; omega⟩
  · obtain ⟨x, esp, hpoint, hle⟩ := h.away hc
    refine ⟨hgood, fun a ha htop => ?_, fun hn => ?_, fun hn => ⟨x, esp, ?_, hle⟩⟩
    · rw [h.good.switchTo_frame hp hroom h.live (fun hcon => hc hcon.symm) (.inl ha)]
      exact h.memory a ha htop
    · -- the thread itself gets the processor, with the stack pointer of its own switch
      have hnt : next = t := hn
      have hsusp : s.point next = some (.suspended x esp) := by rw [hnt]; exact hpoint
      have hres : Resumes threadExit (s.switchTo home next returnTo).cpu (.suspended x esp) :=
        h.good.resumes hsusp hroom
      exact hres.2.2.2.2.2.2.le.trans hle
    · have hnt : next ≠ t := hn
      change Function.update (Function.update s.point next none) s.current _ t = _
      rw [Function.update_of_ne (fun hcon => hc hcon.symm), Function.update_of_ne hnt.symm, hpoint]

theorem Inside.step (h : Inside home threadExit t top m₀ s) (hs : Handling home threadExit t top s s') :
    Inside home threadExit t top m₀ s' := by
  have hgood := h.good.step hs.step
  have own : s.current = t → s'.current = t → s'.cpu.esp.toNat ≤ top ∧
      ∀ a ∈ (home t).stack, top ≤ a → s'.cpu.mem a = m₀ a := by
    intro hc hc'
    obtain ⟨hesp, hmem⟩ := hs.confined hc hc'
    exact ⟨hesp, fun a ha hle => (hmem a ha hle).trans (h.memory a ha hle)⟩
  have hlive := hs.live
  cases hs.step with
  | run c hmem =>
    by_cases hc : s.current = t
    · exact ⟨hgood, (own hc hc).2, fun _ => (own hc hc).1, fun hn => absurd hc hn⟩
    · obtain ⟨x, esp, hpoint, hle⟩ := h.away hc
      refine ⟨hgood, fun a ha htop => ?_, fun hn => absurd hn hc, fun _ => ⟨x, esp, hpoint, hle⟩⟩
      rw [← h.memory a ha htop]
      exact hmem t (by rw [hpoint]; nofun) a (.inl ha)
  | create i stackBase entryPoint hplaced =>
    by_cases hc : s.current = t
    · exact ⟨hgood, (own hc hc).2, fun _ => (own hc hc).1, fun hn => absurd hc hn⟩
    · obtain ⟨x, esp, hpoint, hle⟩ := h.away hc
      have hti : t ≠ i := by
        rintro rfl
        exact hplaced.unused h.live
      refine ⟨hgood, fun a ha htop => ?_, fun hn => absurd hn hc, fun _ => ⟨x, esp, ?_, hle⟩⟩
      · rw [← h.memory a ha htop]
        apply buildThread_outside hplaced.stack
        exact (hplaced.apart t h.live).2 a (.inl ha)
      · rw [System.create_point, Function.update_of_ne hti, hpoint]
  | reap i =>
    by_cases hc : s.current = t
    · exact ⟨hgood, (own hc hc).2, fun _ => (own hc hc).1, fun hn => absurd hc hn⟩
    · obtain ⟨x, esp, hpoint, hle⟩ := h.away hc
      have hti : t ≠ i := by
        rintro rfl
        cases hlive with
        | inl heq => exact hc heq.symm
        | inr hn => exact hn (Function.update_self ..)
      exact ⟨hgood, h.memory, fun hn => absurd hn hc,
        fun _ => ⟨x, esp, (Function.update_of_ne hti ..).trans hpoint, hle⟩⟩
  | switch next returnTo hnext hroom => exact h.switch returnTo hnext hroom

theorem Inside.follow (h : Inside home threadExit t top m₀ s)
    (hrun : ReflTransGen (Handling home threadExit t top) s s') : Inside home threadExit t top m₀ s' := by
  induction hrun with
  | refl => exact h
  | tail _ hstep ih => exact ih.step hstep

end Handlers

section Results

theorem Holds.drop {m : Mem} {a : ℕ} {us vs : List Word} (h : Holds m a (us ++ vs)) :
    Holds m (a + 4 * us.length) vs := by
  intro k w hk
  have hk' : (us ++ vs)[us.length + k]? = some w := by
    rwa [List.getElem?_append_right (by omega), Nat.add_sub_cancel_left]
  have hw := h _ w hk'
  rwa [show a + 4 * (us.length + k) = a + 4 * us.length + 4 * k by omega] at hw

theorem Holds.take {m : Mem} {a : ℕ} {us vs : List Word} (h : Holds m a (us ++ vs)) : Holds m a us := by
  intro k w hk
  apply h k w
  rw [List.getElem?_append_left (List.getElem?_eq_some_iff.mp hk).1, hk]

variable {m m₁ : Machine} {b : Stub} {handler returnTo : Word}

theorem length_entered (m : Machine) (b : Stub) (returnTo : Word) :
    (m.entered b returnTo).length = 12 + b.arguments.length := by
  have hframe : m.frame.reverse.length = 11 := rfl
  rw [Machine.entered, List.length_append, List.length_append, hframe, List.length_singleton]
  omega

/-- The frame, with the arguments for the handler below it and the return address below these. -/
theorem Entered.holds (h : Entered m b handler returnTo m₁)
    (hroom : 4 * (m.entered b returnTo).length ≤ m.cpu.esp.toNat) :
    m₁.cpu.esp.toNat + 48 + 4 * b.arguments.length = m.cpu.esp.toNat ∧
      Holds m₁.cpu.mem (m₁.cpu.esp.toNat + 4) b.arguments.reverse ∧
      Holds m₁.cpu.mem (m.cpu.esp.toNat - 44) m.frame := by
  have hlen := length_entered m b returnTo
  have hesp : m₁.cpu.esp.toNat = m.cpu.esp.toNat - 4 * (m.entered b returnTo).length := by
    rw [h.pushed.esp]
    exact toNat_esp_sub m.cpu.esp hroom
  have hwords := h.pushed.words
  have hrev : (m.entered b returnTo).reverse = [returnTo] ++ (b.arguments.reverse ++ m.frame) := by
    simp [Machine.entered]
  rw [← hesp, hrev] at hwords
  have hargs := hwords.drop
  have hframe := hargs.drop
  rw [List.length_singleton] at hargs hframe
  rw [List.length_reverse, show m₁.cpu.esp.toNat + 4 * 1 + 4 * b.arguments.length = m.cpu.esp.toNat - 44
    by omega] at hframe
  exact ⟨by omega, hargs.take, hframe⟩

theorem length_arguments (b : Stub) : b.arguments.length ≤ 1 := by
  cases b with
  | isrApicTimer => exact Nat.zero_le 1
  | irqStub n => exact Nat.le_refl 1

/-- A thread that an interrupt takes away from its code goes on, when the handler has
returned, with every register, the flags and its stack as they were at the interrupt,
whatever other threads have run in between and however often. -/
theorem preemption_transparent (home : ℕ → Home) (threadExit : Word) (c : Cpu)
    (idleStackBase cleanerStackBase : ℕ) (idleThreadMethod cleanerTask : Word)
    (hstart : Start home idleStackBase cleanerStackBase) (s : System)
    (hrun : ReflTransGen (Step home threadExit)
      (.boot home threadExit c idleStackBase cleanerStackBase idleThreadMethod cleanerTask) s)
    (m : Machine) (hm : m.cpu = s.cpu) (hroom : 52 ≤ s.cpu.esp.toNat)
    (hcov : (home s.current).Covers (s.cpu.esp.toNat - 52) s.cpu.esp.toNat)
    (b : Stub) (isr handler returnTo : Word) :
    let m₁ := b.enter isr handler returnTo m
    let top := m₁.cpu.esp.toNat + 4
    Step home threadExit s { s with cpu := m₁.cpu } ∧
      m₁.cpu.eip = handler ∧ m₁.cpu.eflags.word.getLsbD 9 = false ∧
      Holds m₁.cpu.mem top b.arguments.reverse ∧
      ∀ s₂, ReflTransGen (Handling home threadExit s.current top) { s with cpu := m₁.cpu } s₂ →
        s₂.current = s.current → s₂.cpu.esp.toNat = top → ∀ m₂ : Machine, m₂.cpu = s₂.cpu →
          Restored m (b.leave handler returnTo m₂) ∧
          ∀ a ∈ (home s.current).stack, m.cpu.esp.toNat ≤ a →
            (b.leave handler returnTo m₂).cpu.mem a = m.cpu.mem a := by
  intro m₁ top
  rw [← hm] at hroom hcov
  have hargs := length_arguments b
  have hlen := length_entered m b returnTo
  have hent : Entered m b handler returnTo m₁ := enter_entered b isr handler returnTo m (by omega)
  obtain ⟨hesp, hpassed, hframe⟩ := hent.holds (by omega)
  have hgood := (boot_good hstart c idleThreadMethod cleanerTask).follow hrun
  have hstep : Step home threadExit s { s with cpu := m₁.cpu } := by
    apply Step.run
    intro j hj a ha
    have hne : s.current ≠ j := by
      rintro rfl
      exact hj hgood.running
    rw [← hm]
    apply hent.pushed.outside
    by_contra hcon
    exact hgood.apart s.current j (.inl rfl) (.inr hj) hne a (.inl (hcov a (by omega) (by omega))) ha
  refine ⟨hstep, hent.eip, hent.masked, hpassed, fun s₂ hrun₂ hcur htop m₂ hm₂ => ?_⟩
  have hin : Inside home threadExit s.current top m₁.cpu.mem { s with cpu := m₁.cpu } :=
    ⟨hgood.step hstep, fun _ _ _ => rfl, fun _ => Nat.le_add_right _ _, fun hn => absurd rfl hn⟩
  have hout := hin.follow hrun₂
  have hesp₂ : m₂.cpu.esp = m.cpu.esp - BitVec.ofNat 32 (44 + 4 * b.arguments.length) := by
    apply BitVec.eq_of_toNat_eq
    rw [toNat_esp_sub m.cpu.esp (by omega), hm₂, htop]
    omega
  have hframe₂ : Holds m₂.cpu.mem (m.cpu.esp.toNat - 44) m.frame := by
    apply hframe.congr
    intro a ha ha'
    have h11 : m.frame.length = 11 := rfl
    rw [hm₂]
    exact hout.memory a (hcov a (by omega) (by omega)) (by omega)
  obtain ⟨hres, hmem⟩ : Restored m (b.leave handler returnTo m₂) ∧
      (b.leave handler returnTo m₂).cpu.mem = m₂.cpu.mem := leave_restored (by omega) hesp₂ hframe₂
  refine ⟨hres, fun a ha hle => ?_⟩
  rw [hmem, hm₂, hout.memory a ha (by omega)]
  exact hent.pushed.outside a (.inr hle)

def sampleMachine : Machine := ⟨sampleBoot.cpu, 11, 12, 0x08⟩

def sampleEntered : Machine := Stub.isrApicTimer.enter 0x9000 0xA000 0x9010 sampleMachine

def sampleHandler : System := { sampleBoot with cpu := sampleEntered.cpu }

/-- The handler has switched to the idle thread, -/
def sampleAway : System := sampleHandler.switchTo sampleHome 1 0x9020

/-- which changes every register and its flags -/
def sampleIdle : System :=
  { sampleAway with cpu := { sampleAway.cpu with reg := fun _ => 99, eflags := .load 0 } }

/-- and switches back. -/
def sampleBack : System := sampleIdle.switchTo sampleHome 0 0x6010

/-- The handler has returned. -/
def sampleReturned : System :=
  { sampleBack with cpu := { sampleBack.cpu with esp := sampleEntered.cpu.esp + 4, eip := 0x9010 } }

theorem sampleReturned_esp : sampleReturned.cpu.esp.toNat = sampleEntered.cpu.esp.toNat + 4 := by decide

/-- Away and back, inside the handler. -/
theorem sample_handling :
    ReflTransGen (Handling sampleHome 0x5000 0 (sampleEntered.cpu.esp.toNat + 4)) sampleHandler
      sampleReturned := by
  have hesp : sampleHandler.cpu.esp.toNat = 20432 := by decide
  have hesp' : sampleIdle.cpu.esp.toNat = 36864 := by decide
  have parked : sampleAway.point 0 ≠ none := nofun
  have away : Handling sampleHome 0x5000 0 (sampleEntered.cpu.esp.toNat + 4) sampleHandler sampleAway := by
    have hroom : sampleHandler.Room sampleHome := by
      constructor
      · omega
      · exact sampleHome_covers 0 (by omega) (by omega)
    exact ⟨.switch _ 1 0x9020 nofun hroom, .inr parked, fun _ h => absurd h (by decide)⟩
  have idles : Handling sampleHome 0x5000 0 (sampleEntered.cpu.esp.toNat + 4) sampleAway sampleIdle :=
    ⟨.run _ _ fun _ _ _ _ => rfl, .inr parked, fun h => absurd h (by decide)⟩
  have back : Handling sampleHome 0x5000 0 (sampleEntered.cpu.esp.toNat + 4) sampleIdle sampleBack := by
    have hroom : sampleIdle.Room sampleHome := by
      constructor
      · omega
      · exact sampleHome_covers 1 (by omega) (by omega)
    exact ⟨.switch _ 0 0x6010 parked hroom, .inl rfl, fun h => absurd h (by decide)⟩
  have returns : Handling sampleHome 0x5000 0 (sampleEntered.cpu.esp.toNat + 4) sampleBack sampleReturned :=
    ⟨.run _ _ fun _ _ _ _ => rfl, .inl rfl, fun _ _ => ⟨sampleReturned_esp.le, fun _ _ _ => rfl⟩⟩
  exact (((ReflTransGen.single away).tail idles).tail back).tail returns

/-- Thread 0 is interrupted and comes back after the idle thread has had the processor. -/
theorem preemption_transparent_sample :
    sampleAway.current = 1 ∧ sampleIdle.cpu.reg .ebx = 99 ∧
      Restored sampleMachine
        (Stub.isrApicTimer.leave 0xA000 0x9010 ⟨sampleReturned.cpu, 0, 0, 0x08⟩) := by
  have hesp : sampleBoot.cpu.esp.toNat = 20480 := by decide
  have h := preemption_transparent sampleHome 0x5000 sampleCpu (16384 * 2) (16384 * 3) 0x6000 0x7000
    sampleHome_start sampleBoot .refl sampleMachine rfl (by omega)
    (sampleHome_covers 0 (by omega) (by omega)) .isrApicTimer 0x9000 0xA000 0x9010
  obtain ⟨-, -, -, -, h⟩ := h
  have hrestored := h sampleReturned sample_handling rfl sampleReturned_esp
    ⟨sampleReturned.cpu, 0, 0, 0x08⟩ rfl
  exact ⟨rfl, rfl, hrestored.1⟩

end Results
end KallarOS.Task
