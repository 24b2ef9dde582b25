import KallarOS.PmmModel

namespace KallarOS.Paging
open Pmm

def ptePresent : ℕ := 0x001
def pteRw : ℕ := 0x002
def pteUser : ℕ := 0x004
def pteFrameMask : ℕ := 0xFFFFF000
def pdePresent : ℕ := 0x001
def pdeRw : ℕ := 0x002
def pdeUser : ℕ := 0x004
def pdeTableMask : ℕ := 0xFFFFF000

/-- Physical memory as frames of 1024 words, the directory base, and the globals
of the paging code. -/
structure PagingState where
  phys : ℕ → ℕ → ℕ
  cr3 : ℕ
  refCounter : ℕ → ℕ
  pagingEnabled : Bool
  pmm : PmmState

/-- The frame number in bits 12 to 31 of a directory or table entry. -/
def frameOf (entry : ℕ) : ℕ := entry / 4096 % 2 ^ 20

def Present (entry : ℕ) : Prop := entry % 2 = 1

instance (entry : ℕ) : Decidable (Present entry) := inferInstanceAs (Decidable (_ = _))

namespace PagingState

def setWord (s : PagingState) (frame index value : ℕ) : PagingState :=
  { s with phys := Function.update s.phys frame (Function.update (s.phys frame) index value) }

end PagingState

/-- The two-level walk of the MMU: the frame behind a virtual address. -/
def translate (s : PagingState) (va : ℕ) : Outcome ℕ :=
  let pde := s.phys s.cr3 (va / 2 ^ 22)
  if Present pde then
    let pte := s.phys (frameOf pde) (va / 2 ^ 12 % 1024)
    if Present pte then .ok (frameOf pte) else .error (.fault va)
  else .error (.fault va)

def vread (s : PagingState) (va : ℕ) : Outcome ℕ := do
  let frame ← translate s va
  return s.phys frame (va % 4096 / 4)

def vwrite (s : PagingState) (va value : ℕ) : Outcome PagingState := do
  let frame ← translate s va
  return s.setWord frame (va % 4096 / 4) value

/-- `memset` with 0 over the first `n` words at `va`. -/
def memsetZero (s : PagingState) (va : ℕ) : ℕ → Outcome PagingState
  | 0 => .ok s
  | n + 1 => do
    let s ← memsetZero s va n
    vwrite s (va + 4 * n) 0

/-- `&RECURSIVE_DIR_PTR[d]` -/
def recursiveDirPtr (d : ℕ) : ℕ := 0xFFFFF000 + 4 * d

/-- `RECURSIVE_TABLE_PTR(d)` -/
def recursiveTablePtr (d : ℕ) : ℕ := 0xFFC00000 + d * 0x1000

/-- The static pointer `kernel_directory`, which nothing assigns. -/
def kernelDirectory : ℕ := 0

def dirIndex (va : ℕ) : ℕ := va / 2 ^ 22

def tabIndex (va : ℕ) : ℕ := va / 2 ^ 12 % 1024

def dirFlags (flags : ℕ) : ℕ :=
  if flags &&& pteUser ≠ 0 then pdePresent ||| pdeRw ||| pdeUser else pdePresent ||| pdeRw

/-- The block of `map_page` that creates a missing page table. -/
def installTable (s : PagingState) (d flags : ℕ) : Outcome PagingState := do
  let (newFrame, pmm) ← pmmAllocFrame s.pmm
  -- the answer 0 of the allocator is not looked at
  let s ← vwrite { s with pmm := pmm } (recursiveDirPtr d) (newFrame ||| dirFlags flags)
  memsetZero s (recursiveTablePtr d) 1024

def ensureTable (s : PagingState) (d flags : ℕ) : Outcome PagingState := do
  let pde ← vread s (recursiveDirPtr d)
  if pde &&& pdePresent = 0 then installTable s d flags else return s

/-- `ref_counter[d]++` unless the entry is already present. -/
def countEntry (s : PagingState) (d pte : ℕ) : PagingState :=
  if pte &&& ptePresent = 0 then
    { s with refCounter := Function.update s.refCounter d ((s.refCounter d + 1) % 2 ^ 16) }
  else s

def enterPage (s : PagingState) (d t entry : ℕ) : Outcome PagingState := do
  let pte ← vread s (recursiveTablePtr d + 4 * t)
  vwrite (countEntry s d pte) (recursiveTablePtr d + 4 * t) entry

def mapPageEnabled (s : PagingState) (d t physAddr flags : ℕ) : Outcome PagingState := do
  let s ← ensureTable s d flags
  enterPage s d t (physAddr ||| flags)

/-- The branch for paging turned off, through the pointer `kernel_directory`. -/
def mapPageDisabled (s : PagingState) (d t physAddr flags : ℕ) : Outcome PagingState := do
  let pde ← vread s (kernelDirectory + 4 * d)
  let s ← if pde &&& pdePresent = 0 then do
      let (newFrame, pmm) ← pmmAllocFrame s.pmm
      let s ← memsetZero { s with pmm := pmm } newFrame 1024
      vwrite s (kernelDirectory + 4 * d) (newFrame ||| dirFlags flags)
    else pure s
  let pde ← vread s (kernelDirectory + 4 * d)
  vwrite s ((pde &&& pdeTableMask) + 4 * t) (physAddr ||| flags)

def mapPage (s : PagingState) (virtAddr physAddr flags : ℕ) : Outcome PagingState :=
  if s.pagingEnabled then mapPageEnabled s (dirIndex virtAddr) (tabIndex virtAddr) physAddr flags
  else mapPageDisabled s (dirIndex virtAddr) (tabIndex virtAddr) physAddr flags

/-- `(RECURSIVE_DIR_PTR[d] & PDE_PRESENT) && (RECURSIVE_TABLE_PTR(d)[t] & PTE_PRESENT)` -/
def alreadyMapped (s : PagingState) (d t : ℕ) : Outcome Bool := do
  let pde ← vread s (recursiveDirPtr d)
  if pde &&& pdePresent = 0 then
    return false
  let pte ← vread s (recursiveTablePtr d + 4 * t)
  return decide (pte &&& ptePresent ≠ 0)

def allocPage (s : PagingState) (virtAddr flags : ℕ) : Outcome PagingState := do
  if ¬ s.pagingEnabled then
    .error (.panic "Paging not enabled!\n")
  else
    let mapped ← alreadyMapped s (dirIndex virtAddr) (tabIndex virtAddr)
    if mapped then
      .error (.panic "Virtual address already mapped!\n")
    else
      let (physAddr, pmm) ← pmmAllocFrame s.pmm
      -- this answer 0 is looked at, the one in `map_page` is not
      if physAddr = 0 then
        .error (.panic "Out of RAM\n")
      else
        mapPage { s with pmm := pmm } virtAddr physAddr flags

/-- `unmap_page` clears a present entry and takes it out of the count. -/
def dropEntry (s : PagingState) (d t : ℕ) : Outcome PagingState := do
  let pte ← vread s (recursiveTablePtr d + 4 * t)
  if pte &&& ptePresent ≠ 0 then
    let s ← vwrite s (recursiveTablePtr d + 4 * t) 0
    return { s with refCounter := Function.update s.refCounter d ((s.refCounter d + 0xFFFF) % 2 ^ 16) }
  else
    return s

/-- `unmap_page` gives an empty table below the kernel half back to the PMM. -/
def dropTable (s : PagingState) (d : ℕ) : Outcome PagingState := do
  if s.refCounter d = 0 ∧ d < 768 then
    let pde ← vread s (recursiveDirPtr d)
    let pmm ← pmmFreeFrame s.pmm (pde &&& pteFrameMask)
    vwrite { s with pmm := pmm } (recursiveDirPtr d) 0
  else
    return s

def unmapPage (s : PagingState) (virtAddr : ℕ) : Outcome PagingState := do
  if ¬ s.pagingEnabled then
    .error (.panic "Paging not enabled!\n")
  else
    let pde ← vread s (recursiveDirPtr (dirIndex virtAddr))
    if pde &&& pdePresent = 0 then
      .error (.panic "Page Directory Entry not present!\n\n")
    else
      let s ← dropEntry s (dirIndex virtAddr) (tabIndex virtAddr)
      dropTable s (dirIndex virtAddr)

def freePage (s : PagingState) (virtAddr : ℕ) : Outcome PagingState := do
  if ¬ s.pagingEnabled then
    .error (.panic "Paging not enabled!\n")
  else
    let pde ← vread s (recursiveDirPtr (dirIndex virtAddr))
    if pde &&& pdePresent = 0 then
      .error (.panic "Page Directory Entry not present!\n")
    else
      let pte ← vread s (recursiveTablePtr (dirIndex virtAddr) + 4 * tabIndex virtAddr)
      if pte &&& ptePresent = 0 then
        .error (.panic "Page Table Entry not present!\n")
      else
        let pmm ← pmmFreeFrame s.pmm (pte &&& pteFrameMask)
        unmapPage { s with pmm := pmm } virtAddr

def pagingInit (s : PagingState) : PagingState := { s with pagingEnabled := true }

/-- The directory the boot code leaves: the first 4 MiB at index 768 through one
table, the recursive slot 1023, and the identity map at index 0 removed again. -/
def bootDirectory (dir table d : ℕ) : ℕ :=
  if d = 768 then table * 4096 ||| 3 else if d = 1023 then dir * 4096 ||| 3 else 0

/-- The machine when `kmain` has run `pmm_init`, before `paging_init`. -/
def bootState (dir table : ℕ) (ram : ℕ → ℕ → ℕ) (pmm : PmmState) : PagingState where
  phys f i :=
    if f = dir then bootDirectory dir table i
    else if f = table then i * 4096 ||| 3
    else ram f i
  cr3 := dir
  refCounter := fun _ => 0
  pagingEnabled := false
  pmm := pmm

end KallarOS.Paging
