import KallarOS.InterruptBoot

namespace KallarOS.Interrupts
open Programs Relation

section Boot

variable {l : Stubs} {hw : Hw}

/-- The mask of `pic_remap` already covers IRQ 0, so `kmain` writes back what it reads. -/
theorem Ready.maskTimer (h : Ready l hw) :
    Ready l { hw with pics := hw.pics.outb 0x21 (0xFD ||| 0x01) } := by
  have hdata : hw.pics.master.data (0xFD ||| 0x01) = { hw.pics.master with mask := 0xFD } :=
    data_mask (congrArg Setup.expects h.setup)
  have hmask : hw.pics.master.mask = 0xFD := congrArg Setup.mask h.setup
  have hsame : hw.pics.outb 0x21 (0xFD ||| 0x01) = hw.pics := by
    change { hw.pics with master := hw.pics.master.data (0xFD ||| 0x01) } = hw.pics
    rw [hdata, ← hmask]
  rw [hsame]
  exact h

theorem wp_kmain (h : Booting (fun _ => True) (fun _ => True) (fun _ => True) hw) :
    wp Hw.exec (Around l) (Guarded l) (kmain l) (fun _ => Ready l) hw := by
  unfold kmain
  apply wp_bind
  apply wp_mono (wp_initGdt h)
  intro _ hw h
  apply wp_bind
  apply wp_mono (wp_idtInit h)
  intro _ hw h
  simp only [inb, outb, perform, Prog.call_bind]
  apply Ready.wp_op h
  intro hw h
  have hmask : hw.pics.master.mask = 0xFD := congrArg Setup.mask h.1.setup
  apply Ready.wp_op h
  intro hw' h'
  have hread : (hw.exec (.inb 0x21)).1 = 0xFD := hmask
  rw [hread]
  have hpost : Ready l { hw' with pics := hw'.pics.outb 0x21 (0xFD ||| 0x01) } ∧ hw'.interrupts = true :=
    ⟨h'.1.maskTimer, h'.2⟩
  exact wp_ret (fun _ _ => Ready.around) (fun _ h _ => h.1) hpost fun _ h => h.1

end Boot

section Handlers

variable {l : Stubs} {hw hw' : Hw} {dropped read shown : List (BitVec 8)} {b : BitVec 8}

def Off (hw : Hw) : Prop := hw.interrupts = false

/-- The keyboard is served, and its byte not read yet. -/
structure Unread (l : Stubs) (dropped read : List (BitVec 8)) (b : BitVec 8) (hw : Hw) : Prop
    extends Kept l servingKeyboard hw where
  full : hw.keyboard.output = some b
  taken : hw.pics.master.request 1 = false
  timer : hw.timerInService = false
  off : Off hw
  accounts : Accounts dropped hw read read

/-- The byte has been read, and its line can rise again. -/
structure Served (l : Stubs) (dropped read shown : List (BitVec 8)) (hw : Hw) : Prop
    extends Latched l servingKeyboard hw where
  timer : hw.timerInService = false
  off : Off hw
  accounts : Accounts dropped hw read shown

theorem Unread.others (h : Unread l dropped read b hw) (ho : Others hw hw') : Unread l dropped read b hw' := by
  obtain ⟨-, hi, ht, -⟩ := others_unchanged ho
  refine ⟨h.toKept.others ho, ?_, ?_, ht.trans h.timer, hi.trans h.off, h.accounts.others ho⟩
  · cases ho with
    | key b' hb =>
      rw [h.full] at hb
      cases hb
    | line irq level h₁ h₂ => exact h.full
  · cases ho with
    | key b' hb =>
      rw [h.full] at hb
      cases hb
    | line irq level h₁ h₂ =>
      obtain ⟨k, level', hk, heq⟩ := master_drive hw.pics level h₁
      change (hw.pics.drive irq level).master.request 1 = _
      rw [heq, request_drive_of_ne hk.symm, h.taken]

theorem Served.others (h : Served l dropped read shown hw) (ho : Others hw hw') :
    Served l dropped read shown hw' := by
  obtain ⟨-, hi, ht, -⟩ := others_unchanged ho
  exact ⟨h.toLatched.others ho, ht.trans h.timer, hi.trans h.off, h.accounts.others ho⟩

theorem Unread.inb (h : Unread l dropped read b hw) :
    (hw.exec (.inb 0x60)).1 = b ∧ Served l dropped (read ++ [b]) read (hw.exec (.inb 0x60)).2 := by
  have hbyte : hw.keyboard.output.getD hw.keyboard.last = b := by rw [h.full]; rfl
  have hline : (hw.pics.master.drive 1 false).line 1 = false := line_drive_self
  have hrequest : (hw.pics.master.drive 1 false).request 1 = false := by
    rw [request_drive_self, Bool.false_and]
  obtain ⟨hrec, hecho⟩ := h.accounts
  refine ⟨hbyte, ⟨⟨h.tables, h.setup, h.slave, hline⟩, hrequest⟩, h.timer, h.off, ?_, hecho⟩
  change hw.keyboard.received = dropped ++ (read ++ [b]) ++ []
  rw [hrec, h.full]
  simp

theorem stringText_char {c : UInt8} (hc : 0 ∉ [c]) :
    Stdio.stringText (Stdio.CString.memory ⟨[c], hc⟩) = [c] := by
  have htext : Stdio.stringText ([c] ++ 0 :: []) = Stdio.shown [c] :=
    Stdio.written_of_emit ((Stdio.printString_shown hc Except.ok).trans (bind_pure _))
  refine htext.trans (Stdio.shown_eq_self_iff.mpr ?_)
  simp

/-- `printf("%s", str)` shows the character. -/
theorem printf_char (hw : Hw) {c : UInt8} (hc : 0 ∉ [c]) :
    hw.printf [Stdio.ascii '%', Stdio.ascii 's', 0] [.string ⟨[c], hc⟩] =
      { hw with echoed := hw.echoed ++ [c] } := by
  let format : Stdio.CString := ⟨[Stdio.ascii '%', Stdio.ascii 's'], by decide⟩
  have hargs : Stdio.Supplies (Stdio.pieces format.chars) [.string ⟨[c], hc⟩] := rfl
  have htext : Stdio.expand (fun _ => 0) (Stdio.pieces format.chars) [.string ⟨[c], hc⟩] = [c] := by
    change Stdio.stringText (Stdio.CString.memory ⟨[c], hc⟩) ++ [] = [c]
    rw [stringText_char, List.append_nil]
  have hrun : Stdio.printf Stdio.journal (fun _ => 0) [Stdio.ascii '%', Stdio.ascii 's', 0]
      [.string ⟨[c], hc⟩] hw.echoed = .ok (0, [], hw.echoed ++ [c]) := by
    have hp := @Stdio.printf_eq _ Stdio.journal hw.echoed _ (fun _ => 0) format [] hargs
    rw [htext, Stdio.emit_journal] at hp
    exact hp
  rw [Hw.printf, hrun]

/-- Once the byte is echoed the accounts are even. -/
theorem Served.echoed (h : Served l dropped (read ++ [b]) read hw) {cs : List UInt8}
    (hcs : (echo b).toList = cs) :
    Served l dropped (read ++ [b]) (read ++ [b]) { hw with echoed := hw.echoed ++ cs } := by
  obtain ⟨hrec, hecho⟩ := h.accounts
  refine ⟨⟨⟨h.tables, h.setup, h.slave, h.wired⟩, h.latched⟩, h.timer, h.off, hrec, ?_⟩
  change hw.echoed ++ cs = _
  rw [hecho, List.filterMap_append, ← hcs]
  cases hb : echo b <;> simp [hb]

/-- The byte is done with: nothing is in service, and what has been read is echoed. -/
structure Settled (l : Stubs) (dropped read : List (BitVec 8)) (hw : Hw) : Prop
    extends Latched l remapped hw where
  timer : hw.timerInService = false
  off : Off hw
  accounts : Accounts dropped hw read read

theorem Settled.others (h : Settled l dropped read hw) (ho : Others hw hw') :
    Settled l dropped read hw' := by
  obtain ⟨-, hi, ht, -⟩ := others_unchanged ho
  exact ⟨h.toLatched.others ho, ht.trans h.timer, hi.trans h.off, h.accounts.others ho⟩

theorem Settled.ready (h : Settled l dropped read hw) (hlen : dropped.length ≤ 1) : Ready l hw :=
  ⟨h.toLatched, h.timer, dropped, read, hlen, h.accounts⟩

theorem Served.eoi (h : Served l dropped read read hw) :
    Settled l dropped read { hw with pics := hw.pics.outb 0x20 0x20 } := by
  have hmaster : (hw.pics.outb 0x20 0x20).master = { hw.pics.master with service := fun _ => false } :=
    command_eoi h.setup
  refine ⟨⟨⟨h.tables, ?_, h.slave, ?_⟩, ?_⟩, h.timer, h.off, h.accounts⟩
  · change (hw.pics.outb 0x20 0x20).master.setup = remapped
    rw [hmaster]
    exact congrArg (fun s : Setup => { s with service := fun _ => false }) h.setup
  · change (hw.pics.outb 0x20 0x20).master.line 1 = _
    rw [hmaster]
    exact h.wired
  · change (hw.pics.outb 0x20 0x20).master.request 1 = _
    rw [hmaster]
    exact h.latched

theorem Served.wp_op {o : Op} {k : Ans o → Code} {Q : Unit → Hw → Prop}
    (h : Served l dropped read shown hw)
    (hk : ∀ hw, Served l dropped read shown hw → wp Hw.exec Others Off (k (hw.exec o).1) Q (hw.exec o).2) :
    wp Hw.exec Others Off (.op o k) Q hw :=
  Programs.wp_op (fun _ _ => Served.others) (fun _ h => h.off) h hk

theorem Served.wp_eoi (h : Served l dropped read read hw) :
    wp Hw.exec Others Off (outb 0x20 0x20) (fun _ => Settled l dropped read) hw := by
  apply h.wp_op
  intro hw h
  exact wp_ret (fun _ _ => Settled.others) (fun _ h => h.off) h.eoi fun _ h => h

theorem Served.wp_showKey (h : Served l dropped (read ++ [b]) read hw) :
    wp Hw.exec Others Off (showKey b) (fun _ => Served l dropped (read ++ [b]) (read ++ [b])) hw := by
  have done : ∀ hw, Served l dropped (read ++ [b]) (read ++ [b]) hw →
      wp Hw.exec Others Off (.ret ()) (fun _ => Served l dropped (read ++ [b]) (read ++ [b])) hw :=
    fun hw h => wp_ret (fun _ _ => Served.others) (fun _ h => h.off) h fun _ h => h
  -- a key that shows nothing
  have silent : echo b = none → Served l dropped (read ++ [b]) (read ++ [b]) hw := by
    intro hn
    have hcs : (echo b).toList = [] := by rw [hn]; rfl
    have hnil := h.echoed hcs
    rwa [List.append_nil] at hnil
  unfold showKey
  by_cases hmake : b &&& 0x80 = 0
  · rw [if_pos hmake]
    by_cases hc : kbdUs.getD b.toNat 0 ≠ 0
    · simp only [dif_pos hc]
      apply h.wp_op
      intro hw h
      apply done
      have hcs : (echo b).toList = [kbdUs.getD b.toNat 0] := by rw [echo, if_pos ⟨hmake, hc⟩]; rfl
      have heven := h.echoed hcs
      rwa [← printf_char] at heven
    · simp only [dif_neg hc]
      exact done hw (silent (if_neg fun hcon => hc hcon.2))
  · rw [if_neg hmake]
    exact done hw (silent (if_neg fun hcon => hmake hcon.1))

/-- Served from the interrupt to its end: the byte is read and echoed, and the line is free. -/
theorem Unread.wp_irqHandler (h : Unread l dropped read b hw) :
    wp Hw.exec Others Off (irqHandler 1) (fun _ => Settled l dropped (read ++ [b])) hw := by
  have hcode : irqHandler 1 = keyboardHandler >>= fun _ => outb 0x20 0x20 := rfl
  rw [hcode]
  apply wp_bind
  apply Programs.wp_op (P := Unread l dropped read b) (fun _ _ => Unread.others) (fun _ h => h.off) h
  intro hw h
  obtain ⟨hb, hs⟩ := h.inb
  rw [hb]
  exact wp_mono hs.wp_showKey fun _ _ h => h.wp_eoi

/-- The timer's interrupt ends at the local APIC. -/
structure Timed (l : Stubs) (hw : Hw) : Prop extends Latched l remapped hw where
  off : Off hw
  accounts : ∃ dropped read, dropped.length ≤ 1 ∧ Accounts dropped hw read read

theorem Timed.others (h : Timed l hw) (ho : Others hw hw') : Timed l hw' := by
  obtain ⟨dropped, read, hlen, ha⟩ := h.accounts
  exact ⟨h.toLatched.others ho, (others_unchanged ho).2.1.trans h.off, dropped, read, hlen, ha.others ho⟩

/-- A handler returns. -/
theorem Ready.wp_return (h : Ready l hw) (hoff : Off hw) :
    wp Hw.exec Others Off (.ret ()) (fun _ => Ready l) hw := by
  have hstable : ∀ s s', Ready l s ∧ Off s → Others s s' → Ready l s' ∧ Off s' := fun s s' hs ho =>
    ⟨hs.1.others ho, (others_unchanged ho).2.1.trans hs.2⟩
  exact wp_ret hstable (fun _ h => h.2) ⟨h, hoff⟩ fun _ h => h.1

theorem Timed.wp_apicTimerHandler (h : Timed l hw) :
    wp Hw.exec Others Off apicTimerHandler (fun _ => Ready l) hw := by
  simp only [apicTimerHandler, apicWrite, perform, Prog.call_bind]
  apply Programs.wp_op (P := Timed l) (fun _ _ => Timed.others) (fun _ h => h.off) h
  intro hw h
  have htick : Timed l { hw with systemTicks := hw.systemTicks + 1 } :=
    ⟨⟨⟨h.tables, h.setup, h.slave, h.wired⟩, h.latched⟩, h.off, h.accounts⟩
  apply Programs.wp_op (P := Timed l) (fun _ _ => Timed.others) (fun _ h => h.off) htick
  intro hw h
  have hready : Ready l { hw with timerInService := false } :=
    ⟨⟨⟨h.tables, h.setup, h.slave, h.wired⟩, h.latched⟩, rfl, h.accounts⟩
  exact hready.wp_return h.off

end Handlers

section Acknowledgement

variable {l : Stubs} {c : Chip} {p : Pics} {hw : Hw}

theorem acknowledge_keyboard (h : c.setup = remapped) (hr : c.request 1 = true) :
    c.acknowledge = (1, { c with
      request := Function.update c.request 1 false
      service := Function.update (fun _ => false) 1 true }) := by
  have hservice : c.service = fun _ => false := congrArg Setup.service h
  have hauto : c.autoEoi = false := congrArg Setup.autoEoi h
  have hpending : c.pending = some 1 := by rw [pending_remapped h, if_pos hr]
  rw [Chip.acknowledge, hpending]
  simp [hservice, hauto]

theorem acknowledge_spurious (h : c.setup = remapped) (hr : c.request 1 = false) :
    c.acknowledge = (7, c) := by
  have hpending : c.pending = none := by
    rw [pending_remapped h, hr]
    rfl
  rw [Chip.acknowledge, hpending]

theorem int_remapped (h : c.setup = remapped) : c.int = c.request 1 := by
  rw [Chip.int, pending_remapped h]
  cases c.request 1 <;> rfl

theorem vector_keyboard (h : p.master.setup = remapped) (hr : p.master.request 1 = true) :
    p.acknowledge = (33, { p with master := p.master.acknowledge.2 }) := by
  have hbase : p.master.base = 0x20 := congrArg Setup.base h
  have hpending : p.master.pending ≠ some 2 := by simp [pending_remapped h, hr]
  rw [Pics.acknowledge, if_neg hpending, acknowledge_keyboard h hr, Chip.vector, hbase]
  rfl

theorem vector_spurious (h : p.master.setup = remapped) (hr : p.master.request 1 = false) :
    p.acknowledge = (39, p) := by
  have hbase : p.master.base = 0x20 := congrArg Setup.base h
  have hpending : p.master.pending ≠ some 2 := by simp [pending_remapped h, hr]
  rw [Pics.acknowledge, if_neg hpending, acknowledge_spurious h hr, Chip.vector, hbase]
  rfl

theorem Installed.target_keyboard (h : Installed l hw.tables) : hw.tables.target 33 = some l.irqStub1 :=
  h.loaded.target_eq (by decide) h.keyboard

theorem Installed.target_spurious (h : Installed l hw.tables) : hw.tables.target 39 = some l.isrSpurious :=
  h.loaded.target_eq (by decide) h.spurious

theorem Installed.target_timer (h : Installed l hw.tables) : hw.tables.target 200 = some l.isrApicTimer :=
  h.loaded.target_eq (by decide) h.apicTimer

theorem Installed.keyboard_serves (h : Installed l hw.tables) : hw.serves l 33 = some (irqHandler 1) := by
  rw [Hw.serves, h.target_keyboard]
  exact if_pos rfl

theorem Installed.spurious_serves (h : Installed l hw.tables) : hw.serves l 39 = some (.ret ()) := by
  rw [Hw.serves, h.target_spurious]
  exact (if_neg l.spurious_ne).trans (if_pos rfl)

theorem Installed.timer_serves (h : Installed l hw.tables) : hw.serves l 200 = some apicTimerHandler := by
  rw [Hw.serves, h.target_timer]
  exact (if_neg l.apicTimer_ne.1).trans ((if_neg l.apicTimer_ne.2).trans (if_pos rfl))

end Acknowledgement

section Runs

variable {l : Stubs} {hw hw' : Hw} {code p : Code} {b : BitVec 8}

/-- What the taking of the external interrupt leaves. -/
def Hw.taken (hw : Hw) : Hw := { hw with pics := hw.pics.acknowledge.2, interrupts := false }

/-- The keyboard's interrupt begins with its byte still in the buffer. -/
theorem Ready.unread (h : Ready l hw) (hb : hw.keyboard.output = some b) {dropped read : List (BitVec 8)}
    (ha : Accounts dropped hw read read) :
    hw.serves l hw.pics.acknowledge.1 = some (irqHandler 1) ∧ Unread l dropped read b hw.taken := by
  have hr : hw.pics.master.request 1 = true := by rw [h.latched, hb]; rfl
  have hack := vector_keyboard h.setup hr
  have htaken : hw.taken = { hw with
      pics := { hw.pics with master := hw.pics.master.acknowledge.2 }
      interrupts := false } := by rw [Hw.taken, hack]
  have hrequest : Function.update hw.pics.master.request 1 false 1 = false := Function.update_self ..
  rw [htaken, hack, acknowledge_keyboard h.setup hr]
  refine ⟨h.tables.keyboard_serves, ⟨h.tables, ?_, h.slave, h.wired⟩, hb, hrequest, h.timer, rfl, ha⟩
  exact congrArg (fun s : Setup => { s with service := Function.update (fun _ => false) 1 true }) h.setup

theorem Ready.external (h : Ready l hw) (hp : hw.serves l hw.pics.acknowledge.1 = some p) :
    wp Hw.exec Others Off p (fun _ => Ready l) hw.taken := by
  cases hr : hw.pics.master.request 1 with
  | true =>
    have hfull : hw.keyboard.output.isSome = true := h.latched.symm.trans hr
    obtain ⟨b, hb⟩ := Option.isSome_iff_exists.mp hfull
    obtain ⟨dropped, read, hlen, ha⟩ := h.accounts
    obtain ⟨hserves, hunread⟩ := h.unread hb ha
    cases hserves.symm.trans hp
    exact wp_mono hunread.wp_irqHandler fun _ _ hs => hs.ready hlen
  | false =>
    have hack := vector_spurious h.setup hr
    have htaken : hw.taken = { hw with interrupts := false } := by rw [Hw.taken, hack]
    rw [hack, h.tables.spurious_serves] at hp
    cases hp
    rw [htaken]
    exact (h.setInterrupts false).wp_return rfl

theorem Ready.timer_interrupt (h : Ready l hw) (hp : hw.serves l 200 = some p) :
    wp Hw.exec Others Off p (fun _ => Ready l) { hw with timerInService := true, interrupts := false } := by
  rw [h.tables.timer_serves] at hp
  cases hp
  exact Timed.wp_apicTimerHandler ⟨⟨⟨h.tables, h.setup, h.slave, h.wired⟩, h.latched⟩, rfl, h.accounts⟩

/-- The kernel runs, or a handler has interrupted it when everything was ready. -/
inductive Good (l : Stubs) : System → Prop where
  | kernel {hw : Hw} {code : Code}
    (h : wp Hw.exec (Around l) (Guarded l) code (fun _ => Ready l) hw) : Good l ⟨hw, code, none⟩
  | handler {hw hw₀ : Hw} {code p : Code} (h : wp Hw.exec Others Off p (fun _ => Ready l) hw)
    (h₀ : wp Hw.exec (Around l) (Guarded l) code (fun _ => Ready l) hw₀)
    (hi : hw₀.interrupts = true) (hr : Ready l hw₀) : Good l ⟨hw, code, some p⟩

theorem Good.step {s s' : System} (h : Good l s) (hstep : Step l s s') : Good l s' := by
  cases hstep with
  | others ho code handler =>
    cases h with
    | kernel h => exact .kernel (wp_other h (.inl ho))
    | handler h h₀ hi hr => exact .handler (wp_other h ho) h₀ hi hr
  | code hw o k =>
    cases h with
    | kernel h => exact .kernel (wp_step h)
  | handler hw code o k =>
    cases h with
    | handler h h₀ hi hr => exact .handler (wp_step h) h₀ hi hr
  | external hw code p hi hp =>
    cases h with
    | kernel h =>
      have hr : Ready l hw := wp_inv h hi
      exact .handler (hr.external hp) h hi hr
  | timer hw code p hi ht hp =>
    cases h with
    | kernel h =>
      have hr : Ready l hw := wp_inv h hi
      exact .handler (hr.timer_interrupt hp) h hi hr
  | iret hw code =>
    cases h with
    | handler h h₀ hi hr =>
      exact .kernel (wp_other h₀ (.inr ⟨hi, rfl, fun _ => (wp_done h).setInterrupts true⟩))
  | setFlag hw interrupts =>
    cases h with
    | kernel h =>
      have hstable : ∀ s s', Ready l s → Around l s s' → Ready l s' := fun s s' hs ha =>
        (Ready.around ⟨hs, rfl⟩ ha).1
      exact .kernel (wp_ret hstable (fun _ h _ => h) ((wp_done h).setInterrupts interrupts) fun _ h => h)

theorem Good.run {s s' : System} (h : Good l s) (hrun : ReflTransGen (Step l) s s') : Good l s' := by
  induction hrun with
  | refl => exact h
  | tail _ hstep ih => exact ih.step hstep

/-- A handler that nothing interferes with runs to its end. -/
theorem steps_handler (l : Stubs) (hw : Hw) (code p : Code) :
    ReflTransGen (Step l) ⟨hw, code, some p⟩
      ⟨{ (p.run Hw.exec hw).2 with interrupts := true }, code, none⟩ := by
  induction p generalizing hw with
  | ret a => exact .single (.iret hw code)
  | op o k ih => exact .head (.handler hw code o k) (ih _ (hw.exec o).2)

/-- Every way out of a handler leads through its end. -/
theorem handler_returns {Q : Unit → Hw → Prop} {s' : System} (h : wp Hw.exec Others Off p Q hw)
    (hrun : ReflTransGen (Step l) ⟨hw, code, some p⟩ s') (hs' : s'.handler = none) :
    ∃ hw', Q () hw' ∧ ReflTransGen (Step l) ⟨hw, code, some p⟩ ⟨{ hw' with interrupts := true }, code, none⟩ ∧
      ReflTransGen (Step l) ⟨{ hw' with interrupts := true }, code, none⟩ s' := by
  generalize hs : (⟨hw, code, some p⟩ : System) = s at hrun
  induction hrun using ReflTransGen.head_induction_on generalizing hw p with
  | refl =>
    subst hs
    cases hs'
  | head hstep hrest ih =>
    subst hs
    -- the devices, the next operation of the handler, or its `iret`
    cases hstep with
    | others ho _ _ =>
      obtain ⟨hw', hQ, hend, hon⟩ := ih (wp_other h ho) rfl
      exact ⟨hw', hQ, .head (.others ho _ _) hend, hon⟩
    | handler _ _ o k =>
      obtain ⟨hw', hQ, hend, hon⟩ := ih (wp_step h) rfl
      exact ⟨hw', hQ, .head (.handler _ _ o k) hend, hon⟩
    | iret _ _ => exact ⟨hw, wp_done h, .single (.iret _ _), hrest⟩

/-- From `hw` to `hw'` the byte `b` in the buffer has been read and echoed, and nothing else. -/
structure Shown (b : BitVec 8) (hw hw' : Hw) : Prop where
  read : hw'.keyboard.received = hw.keyboard.received ++ hw'.keyboard.output.toList
  echoed : hw'.echoed = hw.echoed ++ (echo b).toList

theorem Settled.shown {dropped read : List (BitVec 8)} (h : Settled l dropped (read ++ [b]) hw')
    (hb : hw.keyboard.output = some b) (ha : Accounts dropped hw read read) (i : Bool) :
    Shown b hw { hw' with interrupts := i } := by
  obtain ⟨hrec, hecho⟩ := ha
  obtain ⟨hrec', hecho'⟩ := h.accounts
  constructor
  · change hw'.keyboard.received = _
    rw [hrec', hrec, hb]
    simp
  · change hw'.echoed = _
    rw [hecho', hecho, List.filterMap_append]
    cases hecho : echo b <;> simp [hecho]

/-- Once the interrupt of a full buffer is taken, its handler does not return before it has
read and echoed the byte. -/
theorem Ready.key_served {s' : System} (h : Ready l hw) (hb : hw.keyboard.output = some b)
    (hp : hw.serves l hw.pics.acknowledge.1 = some p)
    (hrun : ReflTransGen (Step l) ⟨hw.taken, code, some p⟩ s') (hs' : s'.handler = none) :
    ∃ hw', Shown b hw hw' ∧ ReflTransGen (Step l) ⟨hw.taken, code, some p⟩ ⟨hw', code, none⟩ ∧
      ReflTransGen (Step l) ⟨hw', code, none⟩ s' := by
  obtain ⟨dropped, read, -, ha⟩ := h.accounts
  obtain ⟨hserves, hunread⟩ := h.unread hb ha
  cases hserves.symm.trans hp
  obtain ⟨hw', hsettled, hend, hon⟩ := handler_returns hunread.wp_irqHandler hrun hs'
  exact ⟨_, hsettled.shown hb ha true, hend, hon⟩

end Runs

section Results

variable {l : Stubs} {hw : Hw}

/-- The machine when `kmain` begins. Of the chips nothing is known. -/
structure AtKmain (hw : Hw) : Prop where
  off : hw.interrupts = false
  wired : hw.pics.master.line 1 = hw.keyboard.output.isSome
  timer : hw.timerInService = false
  received : hw.keyboard.received = hw.keyboard.output.toList
  echoed : hw.echoed = []

/-- The kernel hears the keyboard and the timer, and has lost no byte. The external
interrupt is the keyboard's when INT is up, and a spurious one when it has gone down again. -/
structure Attentive (l : Stubs) (s : System) : Prop where
  exceptions : ∀ v < 32, s.hw.tables.target v = some (l.isrStubTable v)
  timer : s.hw.tables.target 200 = some l.isrApicTimer
  keyboard : s.hw.pics.master.int = true →
    s.hw.pics.acknowledge.1 = 33 ∧ s.hw.tables.target 33 = some l.irqStub1
  spurious : s.hw.pics.master.int = false →
    s.hw.pics.acknowledge.1 = 39 ∧ s.hw.tables.target 39 = some l.isrSpurious
  idle : (∀ n, s.hw.pics.master.service n = false) ∧ (∀ n, s.hw.pics.slave.service n = false) ∧
    s.hw.timerInService = false
  raised : ∀ b, s.hw.keyboard.output = some b → s.hw.pics.master.int = true
  returns : ∀ p, s.hw.serves l s.hw.pics.acknowledge.1 = some p →
    ∃ hw', ReflTransGen (Step l) ⟨s.hw.taken, s.code, some p⟩ ⟨hw', s.code, none⟩
  /-- however it goes on once the interrupt is taken -/
  served : ∀ b, s.hw.keyboard.output = some b → ∀ p, s.hw.serves l s.hw.pics.acknowledge.1 = some p →
    ∀ s', ReflTransGen (Step l) ⟨s.hw.taken, s.code, some p⟩ s' → s'.handler = none →
      ∃ hw', Shown b s.hw hw' ∧ ReflTransGen (Step l) ⟨s.hw.taken, s.code, some p⟩ ⟨hw', s.code, none⟩ ∧
        ReflTransGen (Step l) ⟨hw', s.code, none⟩ s'
  accounts : ∃ dropped read, dropped.length ≤ 1 ∧ Accounts dropped s.hw read read

theorem Ready.attentive (h : Ready l hw) (code : Code) : Attentive l ⟨hw, code, none⟩ where
  exceptions v hv := h.tables.loaded.target_eq (by omega) (h.tables.exceptions v hv)
  timer := h.tables.target_timer
  keyboard hint := by
    rw [vector_keyboard h.setup ((int_remapped h.setup).symm.trans hint)]
    exact ⟨rfl, h.tables.target_keyboard⟩
  spurious hint := by
    rw [vector_spurious h.setup ((int_remapped h.setup).symm.trans hint)]
    exact ⟨rfl, h.tables.target_spurious⟩
  idle := ⟨congrFun (congrArg Setup.service h.setup), congrFun h.slave, h.timer⟩
  raised b hb := by
    rw [int_remapped h.setup, h.latched, hb]
    rfl
  returns p _ := ⟨_, steps_handler l hw.taken code p⟩
  served b hb p hp s' hrun hs' := h.key_served hb hp hrun hs'
  accounts := h.accounts

/-- From `kmain` on, whatever the devices do and whenever they do it: each time the kernel
can be interrupted, every interrupt that may come leads to its own stub, none is still in
service, a byte in the keyboard's buffer has raised its interrupt, which once taken does
not end before the byte is read and echoed, and the bytes read so far are the bytes
received, in order, one left over at boot apart. -/
theorem no_key_lost (l : Stubs) (hw : Hw) (h : AtKmain hw) (s : System)
    (hrun : ReflTransGen (Step l) ⟨hw, kmain l, none⟩ s) (hs : s.handler = none)
    (hon : s.hw.interrupts = true ∨ s.code = .ret ()) : Attentive l s := by
  have hboot : Good l ⟨hw, kmain l, none⟩ :=
    .kernel (wp_kmain ⟨h.off, trivial, trivial, trivial, h.wired, h.timer, h.received, h.echoed⟩)
  have hgood := hboot.run hrun
  obtain ⟨hw', code, handler⟩ := s
  cases hs
  cases hgood with
  | kernel hwp =>
    cases hon with
    | inl hi => exact (wp_inv hwp hi).attentive code
    | inr hret =>
      cases hret
      exact Ready.attentive (wp_done (Q := fun _ => Ready l) hwp) _

def sampleStubs : Stubs where
  isrStubTable v := BitVec.ofNat 32 (0xC0101000 + 16 * v)
  irqStub1 := 0xC0101200
  isrSpurious := 0xC0101210
  isrApicTimer := 0xC0101220
  spurious_ne := by decide
  apicTimer_ne := by decide

/-- A chip as the firmware leaves it: the keyboard's line is up, and its request is gone. -/
def sampleChip (base : BitVec 8) : Chip where
  line n := decide (n = 1)
  request _ := false
  service _ := false
  mask := 0xB8
  base := base
  autoEoi := false
  expects := []

/-- A key release is left over in the buffer. -/
def sampleHw : Hw where
  pics := ⟨sampleChip 0x08, sampleChip 0x70⟩
  keyboard := ⟨some 0x9C, 0, [0x9C]⟩
  timerInService := false
  tables := ⟨fun _ => ⟨0, 0, 0, 0, 0, 0⟩, 0, fun _ => ⟨0, 0, 0, 0, 0⟩, 0⟩
  interrupts := false
  systemTicks := 0
  echoed := []

theorem steps_code (l : Stubs) (hw : Hw) (p : Code) :
    ReflTransGen (Step l) ⟨hw, p, none⟩ ⟨(p.run Hw.exec hw).2, .ret (), none⟩ := by
  induction p generalizing hw with
  | ret a => exact .refl
  | op o k ih => exact .head (.code hw o k) (ih _ (hw.exec o).2)

def sampleBooted : Hw := ((kmain sampleStubs).run Hw.exec sampleHw).2

theorem sampleBooted_idle : sampleBooted.keyboard.output = none ∧ sampleBooted.interrupts = true ∧
    sampleBooted.echoed = [] := by
  decide +kernel

/-- The first key after boot is an `a`. -/
theorem no_key_lost_sample :
    ∃ hw, ReflTransGen (Step sampleStubs) ⟨sampleHw, kmain sampleStubs, none⟩ ⟨hw, .ret (), none⟩ ∧
      hw.echoed = [Stdio.ascii 'a'] := by
  obtain ⟨hout, hon, hecho⟩ := sampleBooted_idle
  let hw := sampleBooted.receive 0x1E
  have hboot : ReflTransGen (Step sampleStubs) ⟨sampleHw, kmain sampleStubs, none⟩ ⟨hw, .ret (), none⟩ :=
    (steps_code sampleStubs sampleHw (kmain sampleStubs)).tail (.others (.key sampleBooted 0x1E hout) _ _)
  have hatt := no_key_lost sampleStubs sampleHw ⟨rfl, rfl, rfl, rfl, rfl⟩ _ hboot rfl (.inr rfl)
  obtain ⟨hvector, htarget⟩ := hatt.keyboard (hatt.raised 0x1E rfl)
  have hserves : hw.serves sampleStubs hw.pics.acknowledge.1 = some (irqHandler 1) := by
    rw [hvector, Hw.serves, htarget]
    change sampleStubs.routine sampleStubs.irqStub1 = _
    exact if_pos rfl
  obtain ⟨hw', hshown, hrun, -⟩ := hatt.served 0x1E rfl _ hserves _
    (steps_handler sampleStubs hw.taken (.ret ()) (irqHandler 1)) rfl
  have hchar : (echo 0x1E).toList = [Stdio.ascii 'a'] := by decide
  refine ⟨hw', hboot.trans (.head (.external hw _ _ hon hserves) hrun), ?_⟩
  rw [hshown.echoed, hchar]
  exact congrArg (· ++ [Stdio.ascii 'a']) hecho

end Results
end KallarOS.Interrupts
