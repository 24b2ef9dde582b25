import KallarOS.PagingCalls
import KallarOS.Caches

namespace KallarOS.Paging
open Pmm Caches

/-- Both entries behind virtual page `v`. -/
def PagingState.pages (s : PagingState) (v : ℕ) : Option (ℕ × ℕ) := walkAt s (v / 1024) (v % 1024)

/-- The machine with the translations its processor keeps. -/
structure Mmu where
  state : PagingState
  tlb : Cache ℕ (ℕ × ℕ)

namespace Mmu

/-- An access takes the kept translation, and walks the tables only without one. -/
def translate (m : Mmu) (va : ℕ) : Outcome (ℕ × Mmu) :=
  match lookup m.tlb m.state.pages (page va) with
  | some w => .ok (frameOf w.2, { m with tlb := fill m.tlb m.state.pages (page va) })
  | none => .error (.fault va)

def vread (m : Mmu) (va : ℕ) : Outcome (ℕ × Mmu) := do
  let (frame, m) ← m.translate va
  return (m.state.phys frame (va % 4096 / 4), m)

def vwrite (m : Mmu) (va value : ℕ) : Outcome Mmu := do
  let (frame, m) ← m.translate va
  return { m with state := m.state.setWord frame (va % 4096 / 4) value }

def invlpg (m : Mmu) (va : ℕ) : Mmu := { m with tlb := drop m.tlb (page va) }

def memsetZero (m : Mmu) (va : ℕ) : ℕ → Outcome Mmu
  | 0 => .ok m
  | n + 1 => do
    let m ← memsetZero m va n
    m.vwrite (va + 4 * n) 0

def allocFrame (m : Mmu) : Outcome (ℕ × Mmu) := do
  let (frame, pmm) ← pmmAllocFrame m.state.pmm
  return (frame, { m with state := m.state.withPmm pmm })

def freeFrame (m : Mmu) (address : ℕ) : Outcome Mmu := do
  let pmm ← pmmFreeFrame m.state.pmm address
  return { m with state := m.state.withPmm pmm }

def installTable (m : Mmu) (d flags : ℕ) : Outcome Mmu := do
  let (newFrame, m) ← m.allocFrame
  let m ← m.vwrite (recursiveDirPtr d) (newFrame ||| dirFlags flags)
  (m.invlpg (recursiveTablePtr d)).memsetZero (recursiveTablePtr d) 1024

def ensureTable (m : Mmu) (d flags : ℕ) : Outcome Mmu := do
  let (pde, m) ← m.vread (recursiveDirPtr d)
  if pde &&& pdePresent = 0 then m.installTable d flags else return m

def enterPage (m : Mmu) (d t entry : ℕ) : Outcome Mmu := do
  let (pte, m) ← m.vread (recursiveTablePtr d + 4 * t)
  { m with state := countEntry m.state d pte }.vwrite (recursiveTablePtr d + 4 * t) entry

def mapPageEnabled (m : Mmu) (virtAddr physAddr flags : ℕ) : Outcome Mmu := do
  let m ← m.ensureTable (dirIndex virtAddr) flags
  let m ← m.enterPage (dirIndex virtAddr) (tabIndex virtAddr) (physAddr ||| flags)
  return m.invlpg virtAddr

/-- The branch for paging turned off flushes nothing. -/
def mapPageDisabled (m : Mmu) (d t physAddr flags : ℕ) : Outcome Mmu := do
  let (pde, m) ← m.vread (kernelDirectory + 4 * d)
  let m ← if pde &&& pdePresent = 0 then do
      let (newFrame, m) ← m.allocFrame
      let m ← m.memsetZero newFrame 1024
      m.vwrite (kernelDirectory + 4 * d) (newFrame ||| dirFlags flags)
    else pure m
  let (pde, m) ← m.vread (kernelDirectory + 4 * d)
  m.vwrite ((pde &&& pdeTableMask) + 4 * t) (physAddr ||| flags)

def mapPage (m : Mmu) (virtAddr physAddr flags : ℕ) : Outcome Mmu :=
  if m.state.pagingEnabled then m.mapPageEnabled virtAddr physAddr flags
  else m.mapPageDisabled (dirIndex virtAddr) (tabIndex virtAddr) physAddr flags

def alreadyMapped (m : Mmu) (d t : ℕ) : Outcome (Bool × Mmu) := do
  let (pde, m) ← m.vread (recursiveDirPtr d)
  if pde &&& pdePresent = 0 then
    return (false, m)
  let (pte, m) ← m.vread (recursiveTablePtr d + 4 * t)
  return (decide (pte &&& ptePresent ≠ 0), m)

def allocPage (m : Mmu) (virtAddr flags : ℕ) : Outcome Mmu := do
  if ¬ m.state.pagingEnabled then
    .error (.panic "Paging not enabled!\n")
  else
    let (mapped, m) ← m.alreadyMapped (dirIndex virtAddr) (tabIndex virtAddr)
    if mapped then
      .error (.panic "Virtual address already mapped!\n")
    else
      let (physAddr, m) ← m.allocFrame
      if physAddr = 0 then
        .error (.panic "Out of RAM\n")
      else
        m.mapPage virtAddr physAddr flags

def dropEntry (m : Mmu) (virtAddr : ℕ) : Outcome Mmu := do
  let pteAddr := recursiveTablePtr (dirIndex virtAddr) + 4 * tabIndex virtAddr
  let (pte, m) ← m.vread pteAddr
  if pte &&& ptePresent ≠ 0 then
    let m ← m.vwrite pteAddr 0
    let m := m.invlpg virtAddr
    let count := (m.state.refCounter (dirIndex virtAddr) + 0xFFFF) % 2 ^ 16
    return { m with state := { m.state with
      refCounter := Function.update m.state.refCounter (dirIndex virtAddr) count } }
  else
    return m

def dropTable (m : Mmu) (d : ℕ) : Outcome Mmu := do
  if m.state.refCounter d = 0 ∧ d < 768 then
    let (pde, m) ← m.vread (recursiveDirPtr d)
    let m ← m.freeFrame (pde &&& pteFrameMask)
    let m ← m.vwrite (recursiveDirPtr d) 0
    return m.invlpg (recursiveTablePtr d)
  else
    return m

def unmapPage (m : Mmu) (virtAddr : ℕ) : Outcome Mmu := do
  if ¬ m.state.pagingEnabled then
    .error (.panic "Paging not enabled!\n")
  else
    let (pde, m) ← m.vread (recursiveDirPtr (dirIndex virtAddr))
    if pde &&& pdePresent = 0 then
      .error (.panic "Page Directory Entry not present!\n\n")
    else
      let m ← m.dropEntry virtAddr
      m.dropTable (dirIndex virtAddr)

def freePage (m : Mmu) (virtAddr : ℕ) : Outcome Mmu := do
  if ¬ m.state.pagingEnabled then
    .error (.panic "Paging not enabled!\n")
  else
    let (pde, m) ← m.vread (recursiveDirPtr (dirIndex virtAddr))
    if pde &&& pdePresent = 0 then
      .error (.panic "Page Directory Entry not present!\n")
    else
      let (pte, m) ← m.vread (recursiveTablePtr (dirIndex virtAddr) + 4 * tabIndex virtAddr)
      if pte &&& ptePresent = 0 then
        .error (.panic "Page Table Entry not present!\n")
      else
        -- `RECURSIVE_TABLE_PTR(dir_index)[tab_index]` is read once more for its frame
        let (pte, m) ← m.vread (recursiveTablePtr (dirIndex virtAddr) + 4 * tabIndex virtAddr)
        let m ← m.freeFrame (pte &&& pteFrameMask)
        m.unmapPage virtAddr

end Mmu
end KallarOS.Paging
