import KallarOS.PagingMmu

namespace KallarOS.Loader
open Paging Caches

def kernelVirtualBase : ℕ := 0xC0000000

def kernelStackSize : ℕ := 4096

/-- Where the linker put the pieces of `loader.s`, as physical addresses: its code, its
part of `.bss`, which starts with the page directory, and `kmain`. -/
structure Image where
  loader : ℕ
  bss : ℕ
  kmain : ℕ
  aligned : bss % 4096 = 0
  behind : loader + 120 ≤ bss
  fits : bss + 3 * 4096 ≤ 0x400000
  kmainFits : kmain < 0x400000

namespace Image

def bootPageDirectory (img : Image) : ℕ := img.bss

def bootPageTable1 (img : Image) : ℕ := img.bss + 4096

def kernelStack (img : Image) : ℕ := img.bss + 2 * 4096

end Image

/-- The address a symbol is linked at. -/
def virt (a : ℕ) : ℕ := a + kernelVirtualBase

inductive Reg where
  | eax | ebx | ecx | edx | esi | edi | ebp | esp
deriving Repr, DecidableEq

/-- The instructions `loader.s` uses; `disp` is added to the address behind the
instruction, modulo 2^32. -/
inductive Instr where
  | mov (dst src : Reg)
  | movImm (dst : Reg) (value : ℕ)
  | orImm (dst : Reg) (value : ℕ)
  | addImm (dst : Reg) (value : ℕ)
  | store (base src : Reg)
  | storeAt (address : ℕ) (src : Reg)
  | storeImm (address value : ℕ)
  | loop (disp : ℕ)
  | toCr3 (src : Reg)
  | fromCr3 (dst : Reg)
  | toCr0 (src : Reg)
  | fromCr0 (dst : Reg)
  | lea (dst : Reg) (address : ℕ)
  | jmpReg (src : Reg)
  | jmp (disp : ℕ)
  | cli
  | push (src : Reg)
  | call (disp : ℕ)
  | hlt
deriving Repr, DecidableEq

/-- The code from `loader` on, each instruction with the number of its bytes. -/
def listing (img : Image) : List (Instr × ℕ) :=
  [(.mov .ebp .eax, 2), (.movImm .edi img.bootPageTable1, 5), (.movImm .esi 0, 5),
    (.movImm .ecx 1024, 5),
    -- `.fill_table`, at 17
    (.mov .edx .esi, 2), (.orImm .edx 3, 3), (.store .edi .edx, 2), (.addImm .esi 4096, 6),
    (.addImm .edi 4, 3), (.loop (2 ^ 32 - 18), 2),
    -- at 35
    (.movImm .eax img.bootPageTable1, 5), (.orImm .eax 3, 3),
    (.storeAt (img.bootPageDirectory + 0) .eax, 5),
    (.storeAt (img.bootPageDirectory + 768 * 4) .eax, 5),
    (.movImm .eax img.bootPageDirectory, 5), (.orImm .eax 3, 3),
    (.storeAt (img.bootPageDirectory + 1023 * 4) .eax, 5),
    (.toCr3 .eax, 3), (.fromCr0 .eax, 3), (.orImm .eax 0x80000000, 5), (.toCr0 .eax, 3),
    -- at 80
    (.lea .eax (virt (img.loader + 88)), 6), (.jmpReg .eax, 2),
    -- `higher_half_entry`, at 88
    (.cli, 1), (.movImm .esp (virt img.kernelStack + kernelStackSize), 5),
    (.storeImm (virt img.bootPageDirectory + 0) 0, 10),
    (.fromCr3 .eax, 3), (.toCr3 .eax, 3), (.push .ebp, 1), (.push .ebx, 1),
    (.call ((virt img.kmain + 2 ^ 32 - virt (img.loader + 117)) % 2 ^ 32), 5),
    -- at 117
    (.hlt, 1), (.jmp (2 ^ 32 - 2), 2)]

/-- The processor in 32-bit mode and the physical memory, as frames of 1024 words. -/
structure Machine where
  reg : Reg → ℕ
  eip : ℕ
  interrupts : Bool
  cr0 : ℕ
  cr3 : ℕ
  ram : ℕ → ℕ → ℕ
  tlb : Cache ℕ (ℕ × ℕ)

namespace Machine

def paging (m : Machine) : Bool := m.cr0.testBit 31

/-- The walk through the tables behind CR3; its low bits are not part of the address. -/
def pages (m : Machine) (v : ℕ) : Option (ℕ × ℕ) :=
  let pde := m.ram (frameOf m.cr3) (v / 1024)
  let pte := m.ram (frameOf pde) (v % 1024)
  if Present pde ∧ Present pte then some (pde, pte) else none

def translate (m : Machine) (va : ℕ) : Outcome (ℕ × Machine) :=
  if m.paging then
    match lookup m.tlb m.pages (va / 4096) with
    | some w =>
      .ok (frameOf w.2 * 4096 + va % 4096, { m with tlb := fill m.tlb m.pages (va / 4096) })
    | none => .error (.fault va)
  else .ok (va, m)

def setReg (m : Machine) (r : Reg) (value : ℕ) : Machine :=
  { m with reg := Function.update m.reg r value }

def setWord (m : Machine) (address value : ℕ) : Machine :=
  let frame := Function.update (m.ram (address / 4096)) (address % 4096 / 4) value
  { m with ram := Function.update m.ram (address / 4096) frame }

def storeWord (m : Machine) (va value : ℕ) : Outcome Machine := do
  let (address, m) ← m.translate va
  return m.setWord address value

def push (m : Machine) (value : ℕ) : Outcome Machine := do
  let esp := (m.reg .esp + 2 ^ 32 - 4) % 2 ^ 32
  let m ← m.storeWord esp value
  return m.setReg .esp esp

/-- A load of CR3 flushes every translation. -/
def setCr3 (m : Machine) (value : ℕ) : Machine := { m with cr3 := value, tlb := fun _ => none }

/-- So does a change of the paging bit. -/
def setCr0 (m : Machine) (value : ℕ) : Machine :=
  { m with cr0 := value, tlb := if value.testBit 31 = m.paging then m.tlb else fun _ => none }

def jump (m : Machine) (disp : ℕ) : Machine := { m with eip := (m.eip + disp) % 2 ^ 32 }

end Machine

def exec : Instr → Machine → Outcome Machine
  | .mov dst src, m => .ok (m.setReg dst (m.reg src))
  | .movImm dst value, m => .ok (m.setReg dst value)
  | .orImm dst value, m => .ok (m.setReg dst (m.reg dst ||| value))
  | .addImm dst value, m => .ok (m.setReg dst ((m.reg dst + value) % 2 ^ 32))
  | .store base src, m => m.storeWord (m.reg base) (m.reg src)
  | .storeAt address src, m => m.storeWord address (m.reg src)
  | .storeImm address value, m => m.storeWord address value
  | .loop disp, m =>
    let ecx := (m.reg .ecx + 2 ^ 32 - 1) % 2 ^ 32
    .ok (if ecx = 0 then m.setReg .ecx ecx else (m.setReg .ecx ecx).jump disp)
  | .toCr3 src, m => .ok (m.setCr3 (m.reg src))
  | .fromCr3 dst, m => .ok (m.setReg dst m.cr3)
  | .toCr0 src, m => .ok (m.setCr0 (m.reg src))
  | .fromCr0 dst, m => .ok (m.setReg dst m.cr0)
  | .lea dst address, m => .ok (m.setReg dst address)
  | .jmpReg src, m => .ok { m with eip := m.reg src }
  | .jmp disp, m => .ok (m.jump disp)
  | .cli, m => .ok { m with interrupts := false }
  | .push src, m => m.push (m.reg src)
  | .call disp, m => do
    let m ← m.push m.eip
    return m.jump disp
  -- nothing wakes the processor up with the interrupts off
  | .hlt, _ => .error .diverge

/-- The instruction that starts `offset` bytes into the code. -/
def instrAt : List (Instr × ℕ) → ℕ → Option (Instr × ℕ)
  | [], _ => none
  | (i, n) :: rest, offset =>
    if offset = 0 then some (i, n) else if offset < n then none else instrAt rest (offset - n)

/-- The first and the last byte of an instruction are fetched through the MMU; what is
no code of the loader is not followed. -/
def fetch (img : Image) (m : Machine) : Outcome (Instr × ℕ × Machine) := do
  let (first, m) ← m.translate m.eip
  match if img.loader ≤ first then instrAt (listing img) (first - img.loader) else none with
  | none => .error (.fault m.eip)
  | some (i, n) =>
    let (last, m) ← m.translate (m.eip + (n - 1))
    if last = first + (n - 1) then return (i, n, m) else .error (.fault m.eip)

def step (img : Image) (m : Machine) : Outcome Machine := do
  let (i, n, m) ← fetch img m
  exec i { m with eip := m.eip + n }

def Step (img : Image) (m m' : Machine) : Prop := step img m = .ok m'

end KallarOS.Loader
