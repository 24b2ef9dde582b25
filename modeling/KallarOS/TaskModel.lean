import KallarOS.ByteMemory

namespace KallarOS.Task
open ByteMemory

abbrev Word := BitVec 32

/-- The flags `popfd` loads at ring 0; bit 1 reads as 1 and the others as 0. -/
def flagMask : Word := 0x247FD5

def legalFlags (w : Word) : Word := (w &&& flagMask) ||| 0x2

theorem legalFlags_legalFlags (w : Word) : legalFlags (legalFlags w) = legalFlags w := by
  have h : (0x2 : Word) &&& flagMask = 0#32 := by decide
  unfold legalFlags
  rw [BitVec.and_or_distrib_right, BitVec.and_assoc, BitVec.and_self, h, BitVec.or_zero]

/-- EFLAGS of a machine that stays in ring 0, outside virtual-8086 mode. -/
structure Flags where
  word : Word
  legal : legalFlags word = word

def Flags.load (w : Word) : Flags := ⟨legalFlags w, legalFlags_legalFlags w⟩

/-- The registers that `switch_to_task` names, `esp` apart. -/
inductive Reg where
  | eax | ebx | esi | edi | ebp
deriving Repr, DecidableEq

structure Cpu where
  reg : Reg → Word
  esp : Word
  eip : Word
  eflags : Flags
  mem : Mem

namespace Cpu

def load (c : Cpu) (a : Word) : Word := BitVec.ofNat 32 (read32 c.mem a.toNat)

def setReg (c : Cpu) (r : Reg) (v : Word) : Cpu := { c with reg := Function.update c.reg r v }

def push (c : Cpu) (v : Word) : Cpu :=
  { c with esp := c.esp - 4, mem := write32 c.mem (c.esp - 4).toNat v.toNat }

def drop (c : Cpu) : Cpu := { c with esp := c.esp + 4 }

end Cpu

inductive Instr where
  | pushfd
  | push (r : Reg)
  | loadStack (r : Reg) (offset : Word)
  | storeEsp (r : Reg)
  | loadEsp (offset : Word)
  | pop (r : Reg)
  | popfd
  | ret
deriving Repr, DecidableEq

/-- `pushfd` stores the flags with VM and RF clear. -/
def exec (c : Cpu) : Instr → Cpu
  | .pushfd => c.push (c.eflags.word &&& 0x00FCFFFF)
  | .push r => c.push (c.reg r)
  | .loadStack r offset => c.setReg r (c.load (c.esp + offset))
  | .storeEsp r => { c with mem := write32 c.mem (c.reg r).toNat c.esp.toNat }
  | .loadEsp offset => { c with esp := c.load (c.esp + offset) }
  | .pop r => (c.setReg r (c.load c.esp)).drop
  | .popfd => { c with eflags := .load (c.load c.esp) }.drop
  | .ret => { c with eip := c.load c.esp }.drop

/-- `task_asm.s`, line by line. -/
def switchToTask : List Instr :=
  [.pushfd, .push .ebp, .push .ebx, .push .esi, .push .edi,
    -- five registers were pushed, so the first argument is 24 above `esp`
    .loadStack .eax 24, .storeEsp .eax,
    -- from here on the stack of the next thread
    .loadEsp 28,
    .pop .edi, .pop .esi, .pop .ebx, .pop .ebp, .popfd,
    .ret]

/-- The arguments of `switch_to_task(&prev->esp, next->esp)` on the stack; `esp`
is the first field of a control block. -/
def pushArguments (c : Cpu) (prev next : Word) : Cpu := (c.push (c.load next)).push prev

/-- `call switch_to_task`, to return to `returnTo`. -/
def callSwitch (c : Cpu) (returnTo : Word) : Cpu := switchToTask.foldl exec (c.push returnTo)

/-- Consecutive words from `a` up. -/
def writeWords (m : Mem) (a : ℕ) : List Word → Mem
  | [] => m
  | w :: ws => writeWords (write32 m a w.toNat) (a + 4) ws

/-- `stack[0]` to `stack[6]` of a new thread: edi, esi, ebx, ebp, EFLAGS, the entry
point for `ret`, and the return address above it. -/
def newStack (entryPoint threadExit : Word) : List Word :=
  [0, 0, 0, 0, 0x202, entryPoint, threadExit]

def stackStart (stackBase : ℕ) : ℕ := stackBase + 4096 - 24

/-- The seven stores through `stack` and `new_thread->esp = stack`. -/
def buildThread (m : Mem) (tcb stackBase : ℕ) (entryPoint threadExit : Word) : Mem :=
  write32 (writeWords m (stackStart stackBase) (newStack entryPoint threadExit)) tcb
    (stackStart stackBase)

def createKernelThread (m : Mem) (newThread stackBase : ℕ) (entryPoint threadExit : Word) : Mem :=
  buildThread m newThread stackBase entryPoint threadExit

/-- The stores of `initialize_multitasking` that make the idle thread and the
cleaner switchable. -/
def initializeMultitasking (m : Mem) (idleThread idleStackBase cleaner cleanerStackBase : ℕ)
    (idleThreadMethod cleanerTask threadExit : Word) : Mem :=
  createKernelThread (buildThread m idleThread idleStackBase idleThreadMethod threadExit)
    cleaner cleanerStackBase cleanerTask threadExit

end KallarOS.Task
