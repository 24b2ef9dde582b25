import KallarOS.InterruptModel
import KallarOS.StdioFormat

namespace KallarOS.Interrupts
open Programs Relation

/-- What the programming of a chip decides, as against its inputs. -/
structure Setup where
  service : ℕ → Bool
  mask : BitVec 8
  base : BitVec 8
  autoEoi : Bool
  expects : List Icw

def Chip.setup (c : Chip) : Setup := ⟨c.service, c.mask, c.base, c.autoEoi, c.expects⟩

/-- The master behind `pic_remap`, and while the keyboard is served. -/
def remapped : Setup := ⟨fun _ => false, 0xFD, 0x20, false, []⟩

def servingKeyboard : Setup := { remapped with service := Function.update (fun _ => false) 1 true }

section Chips

variable {c : Chip} {n k : ℕ} {level : Bool} {v : BitVec 8}

theorem setup_drive (c : Chip) (k : ℕ) (level : Bool) : (c.drive k level).setup = c.setup := rfl

theorem line_drive_of_ne (h : n ≠ k) : (c.drive k level).line n = c.line n := Function.update_of_ne h ..

theorem request_drive_of_ne (h : n ≠ k) : (c.drive k level).request n = c.request n :=
  Function.update_of_ne h ..

theorem line_drive_self : (c.drive k level).line k = level := Function.update_self ..

theorem request_drive_self :
    (c.drive k level).request k = (level && (c.request k || !c.line k)) := Function.update_self ..

theorem keyboard_unmasked : ∀ n < 8, (0xFD : BitVec 8).getLsbD n = !decide (n = 1) := by decide

theorem ready_remapped (h : c.setup = remapped) (hn : n < 8) :
    c.ready n = (c.request n && decide (n = 1)) := by
  have hservice : c.service = fun _ => false := congrArg Setup.service h
  have hmask : c.mask = 0xFD := congrArg Setup.mask h
  rw [Chip.ready, hservice, hmask, keyboard_unmasked n hn]
  simp

/-- Nothing but the keyboard gets through. -/
theorem pending_remapped (h : c.setup = remapped) : c.pending = if c.request 1 then some 1 else none := by
  have hfind : (List.range 8).find? c.ready =
      (List.range 8).find? fun n => c.request n && decide (n = 1) := by
    apply List.find?_congr
    intro n hn
    exact ready_remapped h (List.mem_range.mp hn)
  rw [Chip.pending, hfind]
  cases hr : c.request 1 <;> simp [List.range_succ, hr]

theorem update_once :
    Function.update (Function.update (fun _ : ℕ => false) 1 true) 1 false = fun _ => false := by
  rw [Function.update_idem]
  exact Function.update_eq_self 1 _

/-- The end of interrupt after the keyboard leaves nothing in service. -/
theorem command_eoi (h : c.setup = servingKeyboard) :
    c.command 0x20 = { c with service := fun _ => false } := by
  have hservice : c.service = Function.update (fun _ => false) 1 true := congrArg Setup.service h
  have hbit : ¬ (0x20 : BitVec 8).getLsbD 4 = true := by decide
  have hocw : (0x20 : BitVec 8) &&& 0xF8 = 0x20 := by decide
  have hfind : (List.range 8).find? (Function.update (fun _ : ℕ => false) 1 true) = some 1 := by decide
  rw [Chip.command, if_neg hbit, if_pos hocw, hservice, hfind]
  exact congrArg (fun s => { c with service := s }) update_once

theorem service_data (c : Chip) (v : BitVec 8) : (c.data v).service = c.service := by
  unfold Chip.data
  split <;> rfl

theorem data_mask (h : c.expects = []) : c.data v = { c with mask := v } := by
  obtain ⟨line, request, service, mask, base, autoEoi, expects⟩ := c
  subst h
  rfl

end Chips

section Lines

variable {p : Pics} {irq : ℕ} {level : Bool}

/-- A device other than the keyboard leaves input 1 of the master alone. -/
theorem master_drive (p : Pics) (level : Bool) (h : irq ≠ 1) :
    ∃ k level', k ≠ 1 ∧ (p.drive irq level).master = p.master.drive k level' := by
  by_cases hlt : irq < 8
  · exact ⟨irq, level, h, by rw [Pics.drive, if_pos hlt]⟩
  · exact ⟨2, (p.slave.drive (irq - 8) level).int, by decide, by rw [Pics.drive, if_neg hlt]; rfl⟩

theorem slave_drive (p : Pics) (irq : ℕ) (level : Bool) :
    (p.drive irq level).slave.service = p.slave.service := by
  unfold Pics.drive
  split <;> rfl

theorem master_outb_slave (p : Pics) {port : ℕ} (v : BitVec 8) (h : port = 0xA0 ∨ port = 0xA1) :
    ∃ level, (p.outb port v).master = p.master.drive 2 level := by
  obtain rfl | rfl := h
  · exact ⟨(p.slave.command v).int, rfl⟩
  · exact ⟨(p.slave.data v).int, rfl⟩

end Lines

/-- The tables behind `idt_init`: every vector with a gate has its own stub. -/
structure Installed (l : Stubs) (t : Tables) : Prop where
  loaded : t.Loaded
  exceptions : ∀ v < 32, t.idt v = idtSetDescriptor (l.isrStubTable v) 0x8E
  keyboard : t.idt 33 = idtSetDescriptor l.irqStub1 0x8E
  spurious : t.idt 39 = idtSetDescriptor l.isrSpurious 0x8E
  slave : t.idt 47 = idtSetDescriptor l.isrSpurious 0x8E
  apicTimer : t.idt 200 = idtSetDescriptor l.isrApicTimer 0x8E

/-- What a scancode puts on the screen. -/
def echo (scancode : BitVec 8) : Option UInt8 :=
  if scancode &&& 0x80 = 0 ∧ kbdUs.getD scancode.toNat 0 ≠ 0 then some (kbdUs.getD scancode.toNat 0)
  else none

/-- Of the bytes that came in behind `dropped`, `read` have been read by the handler and
`shown` echoed. -/
def Accounts (dropped : List (BitVec 8)) (hw : Hw) (read shown : List (BitVec 8)) : Prop :=
  hw.keyboard.received = dropped ++ read ++ hw.keyboard.output.toList ∧
  hw.echoed = shown.filterMap echo

/-- The master's input 1 follows the output buffer, and the slave serves nothing. -/
structure Kept (l : Stubs) (s : Setup) (hw : Hw) : Prop where
  tables : Installed l hw.tables
  setup : hw.pics.master.setup = s
  slave : hw.pics.slave.service = fun _ => false
  wired : hw.pics.master.line 1 = hw.keyboard.output.isSome

/-- A full buffer is latched as a request. -/
structure Latched (l : Stubs) (s : Setup) (hw : Hw) : Prop extends Kept l s hw where
  latched : hw.pics.master.request 1 = hw.keyboard.output.isSome

/-- Nothing is in service, and every byte read has been echoed; one byte at most was
dropped at boot. -/
structure Ready (l : Stubs) (hw : Hw) : Prop extends Latched l remapped hw where
  timer : hw.timerInService = false
  accounts : ∃ dropped read, dropped.length ≤ 1 ∧ Accounts dropped hw read read

section Devices

variable {l : Stubs} {s : Setup} {hw hw' : Hw} {dropped read shown : List (BitVec 8)}

theorem others_unchanged (h : Others hw hw') :
    hw'.tables = hw.tables ∧ hw'.interrupts = hw.interrupts ∧ hw'.timerInService = hw.timerInService ∧
      hw'.pics.master.setup = hw.pics.master.setup ∧
      hw'.pics.slave.service = hw.pics.slave.service := by
  cases h with
  | key b h => exact ⟨rfl, rfl, rfl, rfl, rfl⟩
  | line irq level h₁ h₂ =>
    obtain ⟨k, level', hk, heq⟩ := master_drive hw.pics level h₁
    refine ⟨rfl, rfl, rfl, ?_, slave_drive hw.pics irq level⟩
    change (hw.pics.drive irq level).master.setup = _
    rw [heq, setup_drive]

theorem wired_others (hwired : hw.pics.master.line 1 = hw.keyboard.output.isSome)
    (h : Others hw hw') : hw'.pics.master.line 1 = hw'.keyboard.output.isSome := by
  cases h with
  | key b h => exact line_drive_self
  | line irq level h₁ h₂ =>
    obtain ⟨k, level', hk, heq⟩ := master_drive hw.pics level h₁
    change (hw.pics.drive irq level).master.line 1 = _
    rw [heq, line_drive_of_ne hk.symm, hwired]

theorem Kept.others (hk : Kept l s hw) (h : Others hw hw') : Kept l s hw' := by
  obtain ⟨ht, -, -, hs, hslave⟩ := others_unchanged h
  exact ⟨ht ▸ hk.tables, hs.trans hk.setup, hslave.trans hk.slave, wired_others hk.wired h⟩

theorem Latched.others (hl : Latched l s hw) (h : Others hw hw') : Latched l s hw' := by
  refine ⟨hl.toKept.others h, ?_⟩
  cases h with
  | key b h =>
    have hline : hw.pics.master.line 1 = false := by rw [hl.wired, h]; rfl
    change (hw.pics.master.drive 1 true).request 1 = true
    rw [request_drive_self, hline]
    simp
  | line irq level h₁ h₂ =>
    obtain ⟨k, level', hk, heq⟩ := master_drive hw.pics level h₁
    change (hw.pics.drive irq level).master.request 1 = _
    rw [heq, request_drive_of_ne hk.symm, hl.latched]

theorem Accounts.others (ha : Accounts dropped hw read shown) (h : Others hw hw') :
    Accounts dropped hw' read shown := by
  obtain ⟨hrec, hecho⟩ := ha
  cases h with
  | key b h =>
    refine ⟨?_, hecho⟩
    rw [h] at hrec
    change hw.keyboard.received ++ [b] = _
    rw [hrec]
    simp [Hw.receive]
  | line irq level h₁ h₂ => exact ⟨hrec, hecho⟩

theorem Ready.others (hr : Ready l hw) (h : Others hw hw') : Ready l hw' := by
  obtain ⟨dropped, read, hlen, ha⟩ := hr.accounts
  exact ⟨hr.toLatched.others h, (others_unchanged h).2.2.1.trans hr.timer, dropped, read, hlen,
    ha.others h⟩

/-- `interrupts` is no part of it. -/
theorem Ready.setInterrupts (hr : Ready l hw) (i : Bool) : Ready l { hw with interrupts := i } :=
  ⟨⟨⟨hr.tables, hr.setup, hr.slave, hr.wired⟩, hr.latched⟩, hr.timer, hr.accounts⟩

end Devices

/-- What may happen around the code of `kmain`: the devices, and once interrupts are on
whole interrupts. -/
def Around (l : Stubs) (hw hw' : Hw) : Prop :=
  Others hw hw' ∨ (hw.interrupts = true ∧ hw'.interrupts = true ∧ (Ready l hw → Ready l hw'))

/-- Interrupts are on only when everything is ready for them. -/
def Guarded (l : Stubs) (hw : Hw) : Prop := hw.interrupts = true → Ready l hw

/-- Before the buffer is emptied: `T` holds of the tables, `C` of the master and `D` of
what the slave serves. -/
structure Booting (T : Tables → Prop) (C : Setup → Prop) (D : (ℕ → Bool) → Prop) (hw : Hw) : Prop where
  off : hw.interrupts = false
  tables : T hw.tables
  setup : C hw.pics.master.setup
  slave : D hw.pics.slave.service
  wired : hw.pics.master.line 1 = hw.keyboard.output.isSome
  timer : hw.timerInService = false
  received : hw.keyboard.received = hw.keyboard.output.toList
  echoed : hw.echoed = []

namespace Booting

variable {l : Stubs} {T T' : Tables → Prop} {C C' : Setup → Prop} {D : (ℕ → Bool) → Prop} {hw hw' : Hw}
  {v : BitVec 8} {α : Type} {Q : α → Hw → Prop}

theorem around (h : Booting T C D hw) (ha : Around l hw hw') : Booting T C D hw' := by
  obtain ho | ⟨hon, -, -⟩ := ha
  · obtain ⟨ht, hi, htimer, hs, hslave⟩ := others_unchanged ho
    refine ⟨hi.trans h.off, ht ▸ h.tables, hs ▸ h.setup, hslave ▸ h.slave, wired_others h.wired ho,
      htimer.trans h.timer, ?_, ?_⟩
    · cases ho with
      | key b hb =>
        have hnil : hw.keyboard.received = [] := by rw [h.received, hb]; rfl
        change hw.keyboard.received ++ [b] = [b]
        rw [hnil]
        rfl
      | line irq level h₁ h₂ => exact h.received
    · cases ho with
      | key b hb => exact h.echoed
      | line irq level h₁ h₂ => exact h.echoed
  · rw [h.off] at hon
    cases hon

theorem guarded (h : Booting T C D hw) : Guarded l hw := fun hon => by
  rw [h.off] at hon
  cases hon

/-- The next operation in the boot phase. -/
theorem wp_op {o : Op} {k : Ans o → Prog Ans α} (h : Booting T C D hw)
    (hk : ∀ hw, Booting T C D hw → wp Hw.exec (Around l) (Guarded l) (k (hw.exec o).1) Q (hw.exec o).2) :
    wp Hw.exec (Around l) (Guarded l) (.op o k) Q hw :=
  Programs.wp_op (fun _ _ => around) (fun _ => guarded) h hk

theorem storeTable (h : Booting T C D hw) (t : Tables) (ht : T' t) :
    Booting T' C D { hw with tables := t } :=
  ⟨h.off, ht, h.setup, h.slave, h.wired, h.timer, h.received, h.echoed⟩

theorem masterChip (h : Booting T C D hw) (c : Chip) (hline : c.line = hw.pics.master.line)
    (hc : C' c.setup) : Booting T C' D { hw with pics := { hw.pics with master := c } } :=
  ⟨h.off, h.tables, hc, h.slave, (congrFun hline 1).trans h.wired, h.timer, h.received, h.echoed⟩

/-- A write to the slave, after which `D'` holds of what it serves. -/
theorem slaveChip {D' : (ℕ → Bool) → Prop} (h : Booting T C D hw) {port : ℕ} (v : BitVec 8)
    (hp : port = 0xA0 ∨ port = 0xA1) (hD : D' (hw.pics.outb port v).slave.service) :
    Booting T C D' { hw with pics := hw.pics.outb port v } := by
  obtain ⟨level, heq⟩ := master_outb_slave hw.pics v hp
  refine ⟨h.off, h.tables, ?_, hD, ?_, h.timer, h.received, h.echoed⟩
  · change C (hw.pics.outb port v).master.setup
    rw [heq, setup_drive]
    exact h.setup
  · change (hw.pics.outb port v).master.line 1 = _
    rw [heq, line_drive_of_ne (by decide)]
    exact h.wired

theorem outb_slave (h : Booting T C D hw) (v : BitVec 8) :
    Booting T C D { hw with pics := hw.pics.outb 0xA1 v } := by
  apply h.slaveChip v (.inr rfl)
  change D (hw.pics.slave.data v).service
  rw [service_data]
  exact h.slave

theorem restart_slave (h : Booting T C D hw) :
    Booting T C (· = fun _ => false) { hw with pics := hw.pics.outb 0xA0 (0x10 ||| 0x01) } :=
  h.slaveChip _ (.inl rfl) rfl

theorem line_data (c : Chip) (v : BitVec 8) : (c.data v).line = c.line := by
  unfold Chip.data
  split <;> rfl

/-- A write to the master's data port, from one stage of the restart to the next. -/
theorem outb_data (h : Booting T C D hw) (v : BitVec 8)
    (hC : ∀ c : Chip, C c.setup → C' (c.data v).setup) :
    Booting T C' D { hw with pics := hw.pics.outb 0x21 v } :=
  h.masterChip _ (line_data _ v) (hC _ h.setup)

end Booting

/-- The master while it waits for `expects`. -/
def Restarted (expects : List Icw) (s : Setup) : Prop :=
  s.service = (fun _ => false) ∧ s.autoEoi = false ∧ s.expects = expects

def RestartedAt (base : BitVec 8) (expects : List Icw) (s : Setup) : Prop :=
  Restarted expects s ∧ s.base = base

theorem restarted_command (c : Chip) : Restarted [.icw2, .icw3, .icw4] (c.command (0x10 ||| 0x01)).setup :=
  ⟨rfl, rfl, rfl⟩

theorem restarted_icw2 {c : Chip} (h : Restarted [.icw2, .icw3, .icw4] c.setup) (v : BitVec 8) :
    RestartedAt (v &&& 0xF8) [.icw3, .icw4] (c.data v).setup := by
  obtain ⟨hs, ha, he⟩ := h
  have he' : c.expects = [.icw2, .icw3, .icw4] := he
  rw [Chip.data, he']
  exact ⟨⟨hs, ha, rfl⟩, rfl⟩

theorem restarted_icw3 {c : Chip} {base : BitVec 8} (h : RestartedAt base [.icw3, .icw4] c.setup)
    (v : BitVec 8) : RestartedAt base [.icw4] (c.data v).setup := by
  obtain ⟨⟨hs, ha, he⟩, hb⟩ := h
  have he' : c.expects = [.icw3, .icw4] := he
  rw [Chip.data, he']
  exact ⟨⟨hs, ha, rfl⟩, hb⟩

theorem restarted_icw4 {c : Chip} {base : BitVec 8} (h : RestartedAt base [.icw4] c.setup) :
    RestartedAt base [] (c.data 0x01).setup := by
  obtain ⟨⟨hs, ha, he⟩, hb⟩ := h
  have he' : c.expects = [.icw4] := he
  rw [Chip.data, he']
  exact ⟨⟨hs, rfl, rfl⟩, hb⟩

theorem restarted_mask {c : Chip} {base : BitVec 8} (h : RestartedAt base [] c.setup) (v : BitVec 8) :
    RestartedAt base [] (c.data v).setup ∧ (c.data v).setup.mask = v := by
  obtain ⟨⟨hs, ha, he⟩, hb⟩ := h
  have he' : c.expects = [] := he
  rw [Chip.data, he']
  exact ⟨⟨⟨hs, ha, rfl⟩, hb⟩, rfl⟩

theorem eq_remapped {s : Setup} (h : RestartedAt 0x20 [] s) (hm : s.mask = 0xFD) : s = remapped := by
  obtain ⟨service, mask, base, autoEoi, expects⟩ := s
  obtain ⟨⟨hs, ha, he⟩, hb⟩ := h
  exact congr (congr (congr (congr (congrArg Setup.mk hs) hm) hb) ha) he

theorem Booting.outb_restart {T : Tables → Prop} {C : Setup → Prop} {D : (ℕ → Bool) → Prop} {hw : Hw}
    (h : Booting T C D hw) : Booting T (Restarted [.icw2, .icw3, .icw4]) D { hw with pics := hw.pics.outb 0x20 (0x10 ||| 0x01) } :=
  h.masterChip _ rfl (restarted_command _)

section Programs

variable {l : Stubs} {T : Tables → Prop} {C : Setup → Prop} {D : (ℕ → Bool) → Prop} {hw : Hw}

/-- `pic_remap` restarts the chips whatever state they were in. -/
theorem wp_picRemap (h : Booting T C D hw) :
    wp Hw.exec (Around l) (Guarded l) (picRemap 0x20 0x28)
      (fun _ => Booting T (· = remapped) (· = fun _ => false)) hw := by
  simp only [picRemap, inb, outb, perform, Prog.call_bind]
  -- the masks are read
  apply h.wp_op
  intro hw h
  apply Booting.wp_op h
  intro hw h
  -- ICW1 to both chips
  apply Booting.wp_op h
  intro hw h
  apply Booting.wp_op h.outb_restart
  intro hw h
  -- ICW2
  apply Booting.wp_op h.restart_slave
  intro hw h
  apply Booting.wp_op (h.outb_data 0x20 fun _ hc => restarted_icw2 hc 0x20)
  intro hw h
  -- ICW3
  apply Booting.wp_op (h.outb_slave 0x28)
  intro hw h
  apply Booting.wp_op (h.outb_data 4 fun _ hc => restarted_icw3 hc 4)
  intro hw h
  -- ICW4
  apply Booting.wp_op (h.outb_slave 2)
  intro hw h
  apply Booting.wp_op (h.outb_data 0x01 fun _ hc => restarted_icw4 hc)
  intro hw h
  -- the masks, first as they were and then the new ones
  apply Booting.wp_op (h.outb_slave 0x01)
  intro hw h
  apply Booting.wp_op (h.outb_data _ fun _ hc => (restarted_mask hc _).1)
  intro hw h
  apply Booting.wp_op (h.outb_slave _)
  intro hw h
  have hset : Booting T (· = remapped) (· = fun _ => false) { hw with pics := hw.pics.outb 0x21 0xFD } :=
    h.outb_data 0xFD fun _ hc => eq_remapped (restarted_mask hc _).1 (restarted_mask hc 0xFD).2
  apply Booting.wp_op hset
  intro hw h
  exact wp_ret (fun _ _ => Booting.around) (fun _ => Booting.guarded) (h.outb_slave 0xFF)
    fun _ h => h

/-- The flat code segment is in place. -/
def Flat (t : Tables) : Prop := t.gdtLimit = 39 ∧ t.gdt 1 = setGdtGate 0 0xFFFFFFF 0x9A 0xCF

/-- The first `k` exceptions have their gates, and so have the vectors in `gates`. -/
structure Gated (l : Stubs) (k : ℕ) (gates : List (ℕ × Word)) (t : Tables) : Prop where
  flat : Flat t
  exceptions : ∀ v < k, t.idt v = idtSetDescriptor (l.isrStubTable v) 0x8E
  gates : ∀ g ∈ gates, t.idt g.1 = idtSetDescriptor g.2 0x8E

theorem Gated.store {k v : ℕ} {gates : List (ℕ × Word)} {t : Tables} (h : Gated l k gates t) (isr : Word)
    (hk : k ≤ v) (hv : ∀ g ∈ gates, g.1 ≠ v) :
    Gated l k ((v, isr) :: gates)
      { t with idt := Function.update t.idt v (idtSetDescriptor isr 0x8E) } := by
  refine ⟨h.flat, fun u hu => ?_, fun g hg => ?_⟩
  · exact (Function.update_of_ne (by omega) ..).trans (h.exceptions u hu)
  · cases List.mem_cons.mp hg with
    | inl heq =>
      subst heq
      exact Function.update_self ..
    | inr hmem => exact (Function.update_of_ne (hv g hmem) ..).trans (h.gates g hmem)

theorem Gated.storeException {v : ℕ} {t : Tables} (h : Gated l v [] t) :
    Gated l (v + 1) []
      { t with idt := Function.update t.idt v (idtSetDescriptor (l.isrStubTable v) 0x8E) } := by
  refine ⟨h.flat, fun u hu => ?_, nofun⟩
  by_cases huv : u = v
  · subst huv
    exact Function.update_self ..
  · exact (Function.update_of_ne huv ..).trans (h.exceptions u (by omega))

theorem Gated.installed {t : Tables}
    (h : Gated l 32 [(47, l.isrSpurious), (33, l.irqStub1), (39, l.isrSpurious), (200, l.isrApicTimer)] t)
    (hl : t.idtLimit = 2047) : Installed l t where
  loaded := ⟨h.flat.1, h.flat.2, hl⟩
  exceptions := h.exceptions
  keyboard := h.gates (33, l.irqStub1) (by simp)
  spurious := h.gates (39, l.isrSpurious) (by simp)
  slave := h.gates (47, l.isrSpurious) (by simp)
  apicTimer := h.gates (200, l.isrApicTimer) (by simp)

/-- The flat code segment, before the limit of the table is set. -/
def HasCode (t : Tables) : Prop := t.gdt 1 = setGdtGate 0 0xFFFFFFF 0x9A 0xCF

theorem codeStored (t : Tables) :
    HasCode { t with gdt := Function.update t.gdt 1 (setGdtGate 0 0xFFFFFFF 0x9A 0xCF) } := by
  change Function.update t.gdt 1 _ 1 = _
  exact Function.update_self ..

theorem Booting.storeGdt {n : ℕ} (h : Booting HasCode C D hw) (e : GdtEntry) (hn : n ≠ 1) :
    Booting HasCode C D
      { hw with tables := { hw.tables with gdt := Function.update hw.tables.gdt n e } } :=
  h.storeTable _ ((Function.update_of_ne hn.symm ..).trans h.tables)

theorem wp_initGdt (h : Booting (fun _ => True) C D hw) :
    wp Hw.exec (Around l) (Guarded l) initGdt (fun _ => Booting Flat C D) hw := by
  simp only [initGdt, perform, Prog.call_bind]
  apply h.wp_op
  intro hw h
  have h₀ : Booting (fun _ => True) C D
      { hw with tables := { hw.tables with gdt := Function.update hw.tables.gdt 0 (setGdtGate 0 0 0 0) } } :=
    h.storeTable _ trivial
  apply h₀.wp_op
  intro hw h
  have h₁ : Booting HasCode C D { hw with tables := { hw.tables with
      gdt := Function.update hw.tables.gdt 1 (setGdtGate 0 0xFFFFFFF 0x9A 0xCF) } } :=
    h.storeTable _ (codeStored hw.tables)
  apply h₁.wp_op
  intro hw h
  apply (h.storeGdt _ (by decide)).wp_op
  intro hw h
  apply (h.storeGdt _ (by decide)).wp_op
  intro hw h
  apply (h.storeGdt _ (by decide)).wp_op
  intro hw h
  exact wp_ret (fun _ _ => Booting.around) (fun _ => Booting.guarded)
    (h.storeTable _ ⟨rfl, h.tables⟩) fun _ h => h

theorem wp_exceptions (h : Booting Flat C D hw) :
    wp Hw.exec (Around l) (Guarded l)
      (Prog.forRange 32 fun vector => storeGate vector (l.isrStubTable vector))
      (fun _ => Booting (Gated l 32 []) C D) hw := by
  have h₀ : Booting (Gated l 0 []) C D hw :=
    h.storeTable hw.tables ⟨h.tables, fun v hv => absurd hv (Nat.not_lt_zero v), nofun⟩
  have hstable : ∀ s s', Booting (Gated l 0 []) C D s → Around l s s' → Booting (Gated l 0 []) C D s' :=
    fun _ _ => Booting.around
  refine wp_forRange (I := fun v => Booting (Gated l v []) C D) 32 hstable (fun _ => Booting.guarded) h₀ ?_
  intro v _ hw h
  simp only [storeGate, perform]
  apply Booting.wp_op h
  intro hw h
  exact wp_ret (fun _ _ => Booting.around) (fun _ => Booting.guarded)
    (h.storeTable _ h.tables.storeException) fun _ h => h

/-- Reading the byte that may be left over frees the buffer for the first key. -/
theorem Booting.drained (h : Booting (Installed l) (· = remapped) (· = fun _ => false) hw) :
    Ready l hw.readKeyboard.2 := by
  have hline : (hw.pics.master.drive 1 false).line 1 = false := line_drive_self
  have hrequest : (hw.pics.master.drive 1 false).request 1 = false := by
    rw [request_drive_self, Bool.false_and]
  refine ⟨⟨⟨h.tables, h.setup, h.slave, hline⟩, hrequest⟩, h.timer, hw.keyboard.output.toList, [], ?_, ?_,
    h.echoed⟩
  · cases hw.keyboard.output <;> simp
  · change hw.keyboard.received = _
    rw [h.received]
    simp [Hw.readKeyboard]

theorem Ready.around {hw hw' : Hw} {i : Bool} (h : Ready l hw ∧ hw.interrupts = i) (ha : Around l hw hw') :
    Ready l hw' ∧ hw'.interrupts = i := by
  obtain ho | ⟨hon, hon', himp⟩ := ha
  · exact ⟨h.1.others ho, (others_unchanged ho).2.1.trans h.2⟩
  · exact ⟨himp h.1, hon'.trans (hon.symm.trans h.2)⟩

theorem Ready.wp_op {i : Bool} {o : Op} {k : Ans o → Code} {Q : Unit → Hw → Prop}
    (h : Ready l hw ∧ hw.interrupts = i)
    (hk : ∀ hw, Ready l hw ∧ hw.interrupts = i →
      wp Hw.exec (Around l) (Guarded l) (k (hw.exec o).1) Q (hw.exec o).2) :
    wp Hw.exec (Around l) (Guarded l) (.op o k) Q hw :=
  Programs.wp_op (fun _ _ => Ready.around) (fun _ h _ => h.1) h hk

theorem wp_idtInit (h : Booting Flat C D hw) :
    wp Hw.exec (Around l) (Guarded l) (idtInit l) (fun _ hw => Ready l hw ∧ hw.interrupts = true) hw := by
  unfold idtInit
  apply wp_bind
  apply wp_mono (wp_exceptions h)
  intro _ hw h
  apply wp_bind
  apply wp_mono (wp_picRemap h)
  intro _ hw h
  simp only [storeGate, inb, perform, Prog.call_bind]
  apply h.wp_op
  intro hw h
  apply (h.storeTable _ (h.tables.store l.isrApicTimer (by decide) (by simp))).wp_op
  intro hw h
  apply (h.storeTable _ (h.tables.store l.isrSpurious (by decide) (by simp))).wp_op
  intro hw h
  apply (h.storeTable _ (h.tables.store l.irqStub1 (by decide) (by simp))).wp_op
  intro hw h
  apply (h.storeTable _ (h.tables.store l.isrSpurious (by decide) (by simp))).wp_op
  intro hw h
  have hin : Booting (Installed l) (· = remapped) (· = fun _ => false)
      { hw with tables := { hw.tables with idtLimit := 8 * 256 - 1 } } := by
    apply h.storeTable
    exact Gated.installed ⟨h.tables.flat, h.tables.exceptions, h.tables.gates⟩ rfl
  apply hin.wp_op
  intro hw h
  apply Ready.wp_op ⟨h.drained, h.off⟩
  intro hw h
  exact wp_ret (fun _ _ => Ready.around) (fun _ h _ => h.1) ⟨h.1.setInterrupts true, rfl⟩ fun _ h => h

end Programs
end KallarOS.Interrupts
