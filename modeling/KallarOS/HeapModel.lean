import KallarOS.Chains
import KallarOS.PagingModel

namespace KallarOS.Heap
open ByteMemory Chains Pmm Paging

def add32 (x y : ℕ) : ℕ := (x + y) % 2 ^ 32

def sub32 (x y : ℕ) : ℕ := (x + (2 ^ 32 - y)) % 2 ^ 32

/-- `sizeof(block_header_t)` -/
def headerSize : ℕ := 8

/-- `size_and_flags & ~0x1` -/
def clearFlag (x : ℕ) : ℕ := x / 2 * 2

/-- `size_and_flags | 0x1` -/
def setFlag (x : ℕ) : ℕ := x / 2 * 2 + 1

/-- The heap's globals, the bytes at the heap's virtual addresses and the page
tables it grows through. -/
structure HeapState where
  mem : Mem
  freeListHead : ℕ
  heapWatermark : ℕ
  paging : PagingState

namespace HeapState

variable (h : HeapState)

def sizeAndFlags (block : ℕ) : ℕ := read32 h.mem block

def nextFreeSlot (block : ℕ) : ℕ := read32 h.mem (block + 4)

def setSizeAndFlags (block v : ℕ) : HeapState := { h with mem := write32 h.mem block v }

def setNextFreeSlot (block v : ℕ) : HeapState := { h with mem := write32 h.mem (block + 4) v }

/-- `if (previous == 0) free_list_head = block; else previous->next_free_slot = block;` -/
def relink (previous block : ℕ) : HeapState :=
  if previous = 0 then { h with freeListHead := block } else h.setNextFreeSlot previous block

end HeapState

def realSize (bytesToAllocate : ℕ) : ℕ := (bytesToAllocate + headerSize + 15) % 2 ^ 32 / 16 * 16

/-- The body of the first-fit loop once `current` is large enough. -/
def takeBlock (h : HeapState) (current previous size : ℕ) : HeapState :=
  let remainingSpace := sub32 (clearFlag (h.sizeAndFlags current)) size
  if headerSize + 4 ≤ remainingSpace then
    -- the rest becomes a free block and takes the place of `current` in the list
    let newBlock := add32 current size
    let h := h.setSizeAndFlags newBlock remainingSpace
    let h := h.setSizeAndFlags newBlock (setFlag (h.sizeAndFlags newBlock))
    let h := h.setSizeAndFlags current size
    let h := h.setSizeAndFlags current (clearFlag (h.sizeAndFlags current))
    let h := h.setNextFreeSlot newBlock (h.nextFreeSlot current)
    h.relink previous newBlock
  else
    -- too little is left for a header: the whole block is handed out
    let h := h.setSizeAndFlags current (clearFlag (h.sizeAndFlags current))
    h.relink previous (h.nextFreeSlot current)

/-- The loop that maps one page after the other at the watermark. -/
def growPages (h : HeapState) : ℕ → Outcome HeapState
  | 0 => .ok h
  | n + 1 => do
    let paging ← allocPage h.paging h.heapWatermark (ptePresent ||| pteRw)
    growPages { h with paging := paging, heapWatermark := add32 h.heapWatermark 4096 } n

def pagesNeeded (size : ℕ) : ℕ := add32 size 4095 / 4096

/-- The block headers `kmalloc` writes into freshly mapped pages at `newBlock`. -/
def carveBlock (h : HeapState) (newBlock previous size : ℕ) : HeapState :=
  let remainingSpace := sub32 (pagesNeeded size * 4096 % 2 ^ 32) size
  if headerSize + 4 ≤ remainingSpace then
    let lastBlock := add32 newBlock size
    let h := h.setSizeAndFlags lastBlock remainingSpace
    let h := h.setSizeAndFlags lastBlock (setFlag (h.sizeAndFlags lastBlock))
    let h := h.setNextFreeSlot lastBlock 0
    let h := h.setSizeAndFlags newBlock size
    let h := h.setSizeAndFlags newBlock (clearFlag (h.sizeAndFlags newBlock))
    -- `previous` is the last block of the list, where the search ended
    if h.freeListHead = 0 then { h with freeListHead := lastBlock }
    else h.setNextFreeSlot previous lastBlock
  else
    -- the block keeps the bytes of its pages that nobody asked for
    h.setSizeAndFlags newBlock (clearFlag (pagesNeeded size * 4096 % 2 ^ 32))

def growHeap (h : HeapState) (previous size : ℕ) : Outcome (ℕ × HeapState) := do
  let newBlock := h.heapWatermark
  let h ← growPages h (pagesNeeded size)
  return (add32 newBlock headerSize, carveBlock h newBlock previous size)

def kmalloc (h : HeapState) (bytesToAllocate : ℕ) : Outcome (ℕ × HeapState) :=
  if bytesToAllocate = 0 then .ok (0, h)
  else
    let size := realSize bytesToAllocate
    let fits := fun block => decide (size ≤ clearFlag (h.sizeAndFlags block))
    match scan 0 h.nextFreeSlot fits walkFuel h.freeListHead 0 with
    | none => .error .diverge
    | some (current, previous) =>
      if current = 0 then growHeap h previous size
      else .ok (add32 current headerSize, takeBlock h current previous size)

/-- `first + (first->size_and_flags & ~0x1) == second` -/
def Touches (h : HeapState) (first second : ℕ) : Prop :=
  add32 first (clearFlag (h.sizeAndFlags first)) = second

instance (h : HeapState) (first second : ℕ) : Decidable (Touches h first second) :=
  inferInstanceAs (Decidable (_ = _))

/-- `first` takes over the bytes and the link of `second`. -/
def absorb (h : HeapState) (first second : ℕ) : HeapState :=
  let h := h.setSizeAndFlags first
    (add32 (h.sizeAndFlags first) (clearFlag (h.sizeAndFlags second)))
  h.setNextFreeSlot first (h.nextFreeSlot second)

def mergeNext (h : HeapState) (current head : ℕ) : HeapState :=
  if head ≠ 0 ∧ Touches h current head then absorb h current head else h

def mergePrev (h : HeapState) (prev current : ℕ) : HeapState :=
  if prev ≠ 0 ∧ Touches h prev current then absorb h prev current else h

def kfree (h : HeapState) (address : ℕ) : Outcome HeapState :=
  let current := sub32 address headerSize
  if h.sizeAndFlags current % 2 = 1 then .error (.panic "USE AFTER FREE!")
  else
    let h := h.setSizeAndFlags current (setFlag (h.sizeAndFlags current))
    match scan 0 h.nextFreeSlot (fun head => decide (current ≤ head)) walkFuel h.freeListHead 0 with
    | none => .error .diverge
    | some (head, prev) =>
      -- first the list, in the order of the addresses, then the two neighbours
      let h := (h.setNextFreeSlot current head).relink prev current
      .ok (mergePrev (mergeNext h current head) prev current)

def kmallocInit (h : HeapState) (kernelEnd : ℕ) : HeapState :=
  { h with heapWatermark := pageAlignUp 32 (add32 kernelEnd 0x400000) }

end KallarOS.Heap
