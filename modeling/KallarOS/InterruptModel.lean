import KallarOS.StdioModel
import KallarOS.StdioOutput
import KallarOS.Descriptors
import KallarOS.PicModel
import KallarOS.Programs

namespace KallarOS.Interrupts
open Programs

/-- The keyboard controller: its output buffer, the byte it gave last, and every byte
that has come into the buffer. -/
structure Keyboard where
  output : Option (BitVec 8)
  last : BitVec 8
  received : List (BitVec 8)

/-- What the interrupt code works on. -/
structure Hw where
  pics : Pics
  keyboard : Keyboard
  /-- the local APIC waits for the end of a timer interrupt -/
  timerInService : Bool
  tables : Tables
  interrupts : Bool
  systemTicks : BitVec 64
  /-- what the interrupt handlers have printed -/
  echoed : List UInt8

inductive Op where
  | inb (port : ℕ)
  | outb (port : ℕ) (data : BitVec 8)
  | apicWrite (reg : ℕ) (value : Word)
  | storeGdt (num : ℕ) (entry : GdtEntry)
  | storeIdt (vector : ℕ) (entry : IdtEntry)
  | lgdt (limit : ℕ)
  | lidt (limit : ℕ)
  | sti
  | addTick
  | printf (format : List UInt8) (args : List Stdio.Arg)

abbrev Ans : Op → Type
  | .inb _ => BitVec 8
  | _ => Unit

abbrev Code := Prog Ans Unit

namespace Hw

/-- Reading port 0x60 empties the buffer, and the controller lowers its line. -/
def readKeyboard (hw : Hw) : BitVec 8 × Hw :=
  (hw.keyboard.output.getD hw.keyboard.last,
    { hw with
      keyboard := { hw.keyboard with
        output := none
        last := hw.keyboard.output.getD hw.keyboard.last }
      pics := hw.pics.drive 1 false })

def inb (port : ℕ) (hw : Hw) : BitVec 8 × Hw :=
  if port = 0x60 then hw.readKeyboard
  else if port = 0x21 then (hw.pics.master.mask, hw)
  else if port = 0xA1 then (hw.pics.slave.mask, hw)
  else (0xFF, hw)

def printf (format : List UInt8) (args : List Stdio.Arg) (hw : Hw) : Hw :=
  match Stdio.printf Stdio.journal (fun _ => 0) format args hw.echoed with
  | .ok (_, _, echoed) => { hw with echoed := echoed }
  | .error _ => hw

def exec : (o : Op) → Hw → Ans o × Hw
  | .inb port, hw => hw.inb port
  | .outb port data, hw => ((), { hw with pics := hw.pics.outb port data })
  | .apicWrite reg _, hw => ((), if reg = 0x0B0 then { hw with timerInService := false } else hw)
  | .storeGdt num entry, hw =>
    ((), { hw with tables := { hw.tables with gdt := Function.update hw.tables.gdt num entry } })
  | .storeIdt vector entry, hw =>
    ((), { hw with tables := { hw.tables with idt := Function.update hw.tables.idt vector entry } })
  | .lgdt limit, hw => ((), { hw with tables := { hw.tables with gdtLimit := limit } })
  | .lidt limit, hw => ((), { hw with tables := { hw.tables with idtLimit := limit } })
  | .sti, hw => ((), { hw with interrupts := true })
  | .addTick, hw => ((), { hw with systemTicks := hw.systemTicks + 1 })
  | .printf format args, hw => ((), hw.printf format args)

/-- A byte comes into the empty output buffer, and the controller raises its line. -/
def receive (hw : Hw) (b : BitVec 8) : Hw :=
  { hw with
    keyboard := { hw.keyboard with output := some b, received := hw.keyboard.received ++ [b] }
    pics := hw.pics.drive 1 true }

end Hw

/-- What the devices do on their own. -/
inductive Others : Hw → Hw → Prop where
  | key (hw : Hw) (b : BitVec 8) (h : hw.keyboard.output = none) : Others hw (hw.receive b)
  | line (hw : Hw) (irq : ℕ) (level : Bool) (h₁ : irq ≠ 1) (h₂ : irq ≠ 2) :
    Others hw { hw with pics := hw.pics.drive irq level }

def perform (o : Op) : Prog Ans (Ans o) := Prog.call o

def inb (port : ℕ) : Prog Ans (BitVec 8) := perform (.inb port)
def outb (port : ℕ) (data : BitVec 8) : Code := perform (.outb port data)
def apicWrite (reg : ℕ) (value : Word) : Code := perform (.apicWrite reg value)

/-- What the linker knows: where the stubs of the interrupts begin. -/
structure Stubs where
  isrStubTable : ℕ → Word
  irqStub1 : Word
  isrSpurious : Word
  isrApicTimer : Word
  spurious_ne : isrSpurious ≠ irqStub1
  apicTimer_ne : isrApicTimer ≠ irqStub1 ∧ isrApicTimer ≠ isrSpurious

def initGdt : Code := do
  perform (.storeGdt 0 (setGdtGate 0 0 0 0))
  perform (.storeGdt 1 (setGdtGate 0 0xFFFFFFF 0x9A 0xCF))
  perform (.storeGdt 2 (setGdtGate 0 0xFFFFFFF 0x92 0xCF))
  perform (.storeGdt 3 (setGdtGate 0 0xFFFFFFF 0xFA 0xCF))
  perform (.storeGdt 4 (setGdtGate 0 0xFFFFFFF 0xF2 0xCF))
  -- `gdt_flush`
  perform (.lgdt (8 * 5 - 1))

def picRemap (offset1 offset2 : BitVec 8) : Code := do
  let a1 ← inb 0x21
  let a2 ← inb 0xA1
  outb 0x20 (0x10 ||| 0x01)
  outb 0xA0 (0x10 ||| 0x01)
  outb 0x21 offset1
  outb 0xA1 offset2
  outb 0x21 4
  outb 0xA1 2
  outb 0x21 0x01
  outb 0xA1 0x01
  outb 0x21 a1
  outb 0xA1 a2
  -- unmasking keyboard
  outb 0x21 0xFD
  outb 0xA1 0xFF

def storeGate (vector : ℕ) (isr : Word) : Code :=
  perform (.storeIdt vector (idtSetDescriptor isr 0x8E))

def idtInit (l : Stubs) : Code := do
  Prog.forRange 32 fun vector => storeGate vector (l.isrStubTable vector)
  picRemap 0x20 0x28
  storeGate 200 l.isrApicTimer
  storeGate 39 l.isrSpurious
  storeGate 33 l.irqStub1
  storeGate 47 l.isrSpurious
  perform (.lidt (8 * 256 - 1))
  let _ ← inb 0x60
  perform .sti

/-- The statements of `kmain` on the interrupt hardware. -/
def kmain (l : Stubs) : Code := do
  initGdt
  idtInit l
  -- mask legacy IRQ 0
  let mask ← inb 0x21
  outb 0x21 (mask ||| 0x01)

def text (s : String) : List UInt8 := s.toList.map Stdio.ascii

def zeros (n : ℕ) : List UInt8 := List.replicate n 0

def kbdUs : List UInt8 :=
  [0, 27] ++ text "1234567890-=\x08\tqwertyuiop[]\n" ++ [0] ++ text "asdfghjkl;'`" ++ [0] ++
    text "\\zxcvbnm,./" ++ [0] ++ text "*" ++ [0] ++ text " " ++ zeros 16 ++ text "-" ++ zeros 53

/-- The body of `keyboard_handler` behind its read of the scancode. -/
def showKey (scancode : BitVec 8) : Code :=
  if scancode &&& 0x80 = 0 then
    let c := kbdUs.getD scancode.toNat 0
    if h : c ≠ 0 then
      perform (.printf [Stdio.ascii '%', Stdio.ascii 's', 0] [.string ⟨[c], by simpa using h.symm⟩])
    else .ret ()
  else .ret ()

def keyboardHandler : Code := do
  let scancode ← inb 0x60
  showKey scancode

def irqHandler (irq : ℕ) : Code := do
  if irq = 1 then keyboardHandler
  if 8 ≤ irq then outb 0xA0 0x20
  outb 0x20 0x20

/-- Before `scheduler_on_tick`, which leaves all of these devices alone. -/
def apicTimerHandler : Code := do
  perform .addTick
  apicWrite 0x0B0 0

/-- The code at the address in a gate, between its `pushad` and its `iret`. -/
def Stubs.routine (l : Stubs) (a : Word) : Option Code :=
  if a = l.irqStub1 then some (irqHandler 1)
  else if a = l.isrSpurious then some (.ret ())
  else if a = l.isrApicTimer then some apicTimerHandler
  else none

/-- The processor between instructions: what `kmain` has still to do, and the handler
that interrupts it. -/
structure System where
  hw : Hw
  code : Code
  handler : Option Code

/-- The code behind the gate of `v`. -/
def Hw.serves (l : Stubs) (hw : Hw) (v : ℕ) : Option Code := hw.tables.target v >>= l.routine

inductive Step (l : Stubs) : System → System → Prop where
  | others {hw hw' : Hw} (h : Others hw hw') (code : Code) (handler : Option Code) :
    Step l ⟨hw, code, handler⟩ ⟨hw', code, handler⟩
  | code (hw : Hw) (o : Op) (k : Ans o → Code) :
    Step l ⟨hw, .op o k, none⟩ ⟨(hw.exec o).2, k (hw.exec o).1, none⟩
  | handler (hw : Hw) (code : Code) (o : Op) (k : Ans o → Code) :
    Step l ⟨hw, code, some (.op o k)⟩ ⟨(hw.exec o).2, code, some (k (hw.exec o).1)⟩
  /-- INT is taken, even if the request has gone meanwhile -/
  | external (hw : Hw) (code p : Code) (hi : hw.interrupts = true)
    (hp : hw.serves l hw.pics.acknowledge.1 = some p) :
    Step l ⟨hw, code, none⟩
      ⟨{ hw with pics := hw.pics.acknowledge.2, interrupts := false }, code, some p⟩
  | timer (hw : Hw) (code p : Code) (hi : hw.interrupts = true) (ht : hw.timerInService = false)
    (hp : hw.serves l 200 = some p) :
    Step l ⟨hw, code, none⟩ ⟨{ hw with timerInService := true, interrupts := false }, code, some p⟩
  | iret (hw : Hw) (code : Code) :
    Step l ⟨hw, code, some (.ret ())⟩ ⟨{ hw with interrupts := true }, code, none⟩
  /-- the rest of the kernel has `cli` and `sti` -/
  | setFlag (hw : Hw) (interrupts : Bool) :
    Step l ⟨hw, .ret (), none⟩ ⟨{ hw with interrupts := interrupts }, .ret (), none⟩

end KallarOS.Interrupts
