import KallarOS.Outcome
import KallarOS.ByteMemory

namespace KallarOS.Pmm
open ByteMemory

def pageAlignDown (addr : ℕ) : ℕ := addr / 4096 * 4096

/-- `PAGE_ALIGN_UP` in a `w`-bit unsigned type: the addition wraps before the mask. -/
def pageAlignUp (w addr : ℕ) : ℕ := pageAlignDown ((addr + 0xFFF) % 2 ^ w)

/-- `x++` and `x--` on a `uint32_t`. -/
def inc32 (x : ℕ) : ℕ := (x + 1) % 2 ^ 32

def dec32 (x : ℕ) : ℕ := (x + 0xFFFFFFFF) % 2 ^ 32

structure PmmState where
  array : ℕ → BitVec 32
  maxBlocks : ℕ
  usedBlocks : ℕ
  lastAllocatedBit : ℕ

namespace PmmState

/-- The words of the bitmap, as `pmm_init` lays it out. -/
def words (p : PmmState) : ℕ := (p.maxBlocks + 31) / 32

def bit (p : PmmState) (i : ℕ) : Bool := (p.array (i / 32)).getLsbD (i % 32)

end PmmState

/-- A bitmap word; an index past the end of the bitmap faults. -/
def bitmapWord (p : PmmState) (index : ℕ) : Outcome (BitVec 32) :=
  if index < p.words then .ok (p.array index) else .error (.fault index)

def storeWord (p : PmmState) (index : ℕ) (w : BitVec 32) : PmmState :=
  { p with array := Function.update p.array index w }

def bitmapSet (p : PmmState) (bit : ℕ) : Outcome PmmState := do
  let w ← bitmapWord p (bit / 32)
  return storeWord p (bit / 32) (w ||| (1#32 <<< (bit % 32)))

def bitmapClear (p : PmmState) (bit : ℕ) : Outcome PmmState := do
  let w ← bitmapWord p (bit / 32)
  return storeWord p (bit / 32) (w &&& ~~~(1#32 <<< (bit % 32)))

def bitmapCheck (p : PmmState) (bit : ℕ) : Outcome Bool := do
  let w ← bitmapWord p (bit / 32)
  return decide (w &&& (1#32 <<< (bit % 32)) ≠ 0#32)

def pmmMarkUsed (p : PmmState) (physicalAddr : ℕ) : Outcome PmmState := do
  let frameIndex := physicalAddr / 4096
  if p.maxBlocks ≤ frameIndex then
    return p
  let used ← bitmapCheck p frameIndex
  if used then
    return p
  let p ← bitmapSet p frameIndex
  return { p with usedBlocks := inc32 p.usedBlocks }

def pmmFreeFrame (p : PmmState) (physicalAddr : ℕ) : Outcome PmmState := do
  let frameIndex := physicalAddr / 4096
  if p.maxBlocks ≤ frameIndex then
    return p
  let used ← bitmapCheck p frameIndex
  if used then
    let p ← bitmapClear p frameIndex
    return { p with usedBlocks := dec32 p.usedBlocks }
  else
    .error (.panic "Double free")

/-- `n` rounds of the marking loop, from frame `i` on. -/
def markFrames (p : PmmState) (i : ℕ) : ℕ → Outcome PmmState
  | 0 => .ok p
  | n + 1 => do
    let p ← pmmMarkUsed p (i * 4096 % 2 ^ 32)
    markFrames p (i + 1) n

def pmmMarkRegionUsed (p : PmmState) (startAddr endAddr : ℕ) : Outcome PmmState :=
  let startFrame := pageAlignDown startAddr / 4096
  let endFrame := pageAlignUp 32 endAddr / 4096
  markFrames p startFrame (endFrame - startFrame)

/-- `multiboot_mmap_entry`, packed. -/
structure MmapEntry where
  size : ℕ
  addr : ℕ
  len : ℕ
  type : ℕ
deriving Repr, DecidableEq

def multibootMemoryAvailable : ℕ := 1

def readEntry (mem : Mem) (mmap : ℕ) : MmapEntry where
  size := read32 mem mmap
  addr := read64 mem (mmap + 4)
  len := read64 mem (mmap + 12)
  type := read32 mem (mmap + 20)

structure MultibootInfo where
  mmapAddr : ℕ
  mmapLength : ℕ

namespace MultibootInfo

def mmapStart (mbd : MultibootInfo) : ℕ := (mbd.mmapAddr + 0xC0000000) % 2 ^ 32

def mmapEnd (mbd : MultibootInfo) : ℕ := (mbd.mmapAddr + mbd.mmapLength + 0xC0000000) % 2 ^ 32

end MultibootInfo

/-- The `while` loop both passes of `pmm_init` run over the memory map. -/
def forEachEntry {α : Type} (mem : Mem) (mmapEnd : ℕ) (body : MmapEntry → α → Outcome α) :
    ℕ → ℕ → α → Outcome α
  | 0, _, _ => .error .diverge
  | fuel + 1, mmap, a =>
    if mmap < mmapEnd then do
      let entry := readEntry mem mmap
      let a ← body entry a
      forEachEntry mem mmapEnd body fuel ((mmap + entry.size + 4) % 2 ^ 32) a
    else .ok a

/-- Where an entry ends, `addr + len` in 64 bits. -/
def MmapEntry.stop (e : MmapEntry) : ℕ := (e.addr + e.len) % 2 ^ 64

def highestBody (e : MmapEntry) (highestAddr : ℕ) : Outcome ℕ :=
  if e.type = multibootMemoryAvailable then
    if e.addr ≤ 0xFFFFFFFF then
      let regionEnd := if e.stop > 0xFFFFFFFF then 0xFFFFF000 else e.stop
      .ok (if regionEnd > highestAddr then regionEnd else highestAddr)
    else .ok highestAddr
  else .ok highestAddr

def freeOne (p : PmmState) (i : ℕ) : Outcome PmmState := do
  let used ← bitmapCheck p i
  if used then
    let p ← bitmapClear p i
    return { p with usedBlocks := dec32 p.usedBlocks }
  else
    return p

/-- `n` rounds of the freeing loop, from frame `i` on. -/
def freeFrames (p : PmmState) (i : ℕ) : ℕ → Outcome PmmState
  | 0 => .ok p
  | n + 1 => do
    let p ← freeOne p i
    freeFrames p (i + 1) n

def whitelistBody (e : MmapEntry) (p : PmmState) : Outcome PmmState :=
  if e.addr ≤ 0xFFFFFFFF ∧ e.type = multibootMemoryAvailable then
    let regionStart := pageAlignUp 64 e.addr % 2 ^ 32
    let regionEnd := if e.stop > 0xFFFFFFFF then 0xFFFFF000 else pageAlignDown e.stop % 2 ^ 32
    let startFrame := regionStart / 4096
    let endFrame := regionEnd / 4096
    freeFrames p startFrame (endFrame - startFrame)
  else .ok p

/-- What the linker script and `kmain` fix before `pmm_init` runs: the kernel
image in the higher half and the bitmap behind it. -/
structure Layout where
  kernelStart : ℕ
  kernelEnd : ℕ
  bitmapAddr : ℕ
  higherHalf : 0xC0100000 ≤ kernelStart
  ordered : kernelStart ≤ kernelEnd
  behind : kernelEnd ≤ bitmapAddr
  room : bitmapAddr ≤ 0xFFFC0000

/-- No walk over 32-bit addresses takes more rounds without repeating itself. -/
def walkFuel : ℕ := 2 ^ 32

def bitmapSizeBytes (maxBlocks : ℕ) : ℕ := (maxBlocks + 31) / 32 * 4

/-- The bitmap is taken not to overlap the memory map, which the second walk reads after
the `memset`: both walks read `mem`. -/
def pmmInit (l : Layout) (mem : Mem) (mbd : MultibootInfo) : Outcome PmmState := do
  let highestAddr ← forEachEntry mem mbd.mmapEnd highestBody walkFuel mbd.mmapStart 0
  let maxBlocks := pageAlignUp 32 highestAddr / 4096
  -- everything starts out used: the memset with 0xFF
  let p : PmmState :=
    { array := fun _ => 0xFFFFFFFF#32, maxBlocks := maxBlocks, usedBlocks := maxBlocks,
      lastAllocatedBit := 0 }
  let p ← forEachEntry mem mbd.mmapEnd whitelistBody walkFuel mbd.mmapStart p
  let p ← pmmMarkRegionUsed p (l.kernelStart - 0xC0000000) (l.kernelEnd - 0xC0000000)
  let p ← pmmMarkRegionUsed p (l.bitmapAddr - 0xC0000000)
    (l.bitmapAddr + bitmapSizeBytes maxBlocks - 0xC0000000)
  pmmMarkRegionUsed p 0 0x100000

/-- The search loop of `pmm_alloc_frame`, `n` rounds from round `i` on. -/
def allocScan (p : PmmState) (arraySize startIndex : ℕ) (i : ℕ) : ℕ → Outcome (ℕ × PmmState)
  | 0 => .ok (0, p)
  | n + 1 => do
    let currentIndex := (startIndex + i) % arraySize
    let bitChunk ← bitmapWord p currentIndex
    if bitChunk = 0xFFFFFFFF#32 then
      allocScan p arraySize startIndex (i + 1) n
    else
      let freeBitOffset := (~~~bitChunk).ctz.toNat
      let bitIndex := currentIndex * 32 + freeBitOffset
      -- a clear padding bit ends the search, full words after it or not
      if p.maxBlocks ≤ bitIndex then
        .ok (0, p)
      else
        let p ← pmmMarkUsed p (bitIndex * 4096 % 2 ^ 32)
        return (bitIndex * 4096 % 2 ^ 32, { p with lastAllocatedBit := bitIndex })

def pmmAllocFrame (p : PmmState) : Outcome (ℕ × PmmState) :=
  let arraySize := (p.maxBlocks + 31) / 32
  let startIndex := p.lastAllocatedBit / 32
  allocScan p arraySize startIndex 0 arraySize

end KallarOS.Pmm
