import Mathlib

namespace KallarOS.Interrupts

abbrev Word := BitVec 32

/-- `struct gdt_entry_struct`. -/
structure GdtEntry where
  limit : BitVec 16
  baseLow : BitVec 16
  baseMiddle : BitVec 8
  access : BitVec 8
  flags : BitVec 8
  baseHigh : BitVec 8
deriving Repr, DecidableEq

def setGdtGate (base limit : Word) (access gran : BitVec 8) : GdtEntry where
  baseLow := (base &&& 0xFFFF).setWidth 16
  baseMiddle := ((base >>> 16) &&& 0xFF).setWidth 8
  baseHigh := ((base >>> 24) &&& 0xFF).setWidth 8
  limit := (limit &&& 0xFFFF).setWidth 16
  flags := ((limit >>> 16) &&& 0x0F).setWidth 8 ||| (gran &&& 0xF0)
  access := access

/-- The packed structure in memory, the first field at the low end. -/
def GdtEntry.quad (e : GdtEntry) : BitVec 64 :=
  e.baseHigh ++ e.flags ++ e.access ++ e.baseMiddle ++ e.baseLow ++ e.limit

/-- `idt_entry_t`. -/
structure IdtEntry where
  isrLow : BitVec 16
  kernelCs : BitVec 16
  reserved : BitVec 8
  attributes : BitVec 8
  isrHigh : BitVec 16
deriving Repr, DecidableEq

def idtSetDescriptor (isr : Word) (flags : BitVec 8) : IdtEntry where
  isrLow := (isr &&& 0xFFFF).setWidth 16
  kernelCs := 0x08
  attributes := flags
  isrHigh := (isr >>> 16).setWidth 16
  reserved := 0

def IdtEntry.quad (e : IdtEntry) : BitVec 64 :=
  e.isrHigh ++ e.attributes ++ e.reserved ++ e.kernelCs ++ e.isrLow

/-- A segment as the processor takes it from a descriptor. -/
structure Segment where
  base : Word
  limit : BitVec 20
  access : BitVec 8
  flags : BitVec 4
deriving Repr, DecidableEq

def segmentOf (q : BitVec 64) : Segment where
  base := q.extractLsb' 56 8 ++ q.extractLsb' 16 24
  limit := q.extractLsb' 48 4 ++ q.extractLsb' 0 16
  access := q.extractLsb' 40 8
  flags := q.extractLsb' 52 4

/-- The last offset inside the segment, in pages when G is set. -/
def Segment.last (s : Segment) : ℕ :=
  if s.flags.getLsbD 3 then s.limit.toNat * 4096 + 4095 else s.limit.toNat

/-- Present, in ring 0, and code. -/
def Segment.IsCode (s : Segment) : Prop := s.access &&& 0xF8 = 0x98

instance (s : Segment) : Decidable s.IsCode := inferInstanceAs (Decidable (_ = _))

/-- A gate as the processor takes it from a descriptor. -/
structure Gate where
  offset : Word
  selector : BitVec 16
  attributes : BitVec 8
deriving Repr, DecidableEq

def gateOf (q : BitVec 64) : Gate where
  offset := q.extractLsb' 48 16 ++ q.extractLsb' 0 16
  selector := q.extractLsb' 16 16
  attributes := q.extractLsb' 40 8

/-- Present, and a 32-bit interrupt gate. -/
def Gate.IsInterrupt (g : Gate) : Prop := g.attributes &&& 0x9F = 0x8E

instance (g : Gate) : Decidable g.IsInterrupt := inferInstanceAs (Decidable (_ = _))

/-- Both tables, with the limits in `gdtr` and `idtr`. -/
structure Tables where
  gdt : ℕ → GdtEntry
  gdtLimit : ℕ
  idt : ℕ → IdtEntry
  idtLimit : ℕ

namespace Tables

def gate (t : Tables) (v : ℕ) : Gate := gateOf (t.idt v).quad

def segment (t : Tables) (selector : BitVec 16) : Segment := segmentOf (t.gdt (selector.toNat / 8)).quad

/-- Where the processor goes on interrupt `v`; `none` when it faults instead. -/
def target (t : Tables) (v : ℕ) : Option Word :=
  let g := t.gate v
  let s := t.segment g.selector
  if 8 * v + 7 ≤ t.idtLimit ∧ g.IsInterrupt ∧ 8 ≤ g.selector.toNat ∧ ¬ g.selector.getLsbD 2 ∧
      g.selector.toNat / 8 * 8 + 7 ≤ t.gdtLimit ∧ s.IsCode ∧ g.offset.toNat ≤ s.last then
    some (s.base + g.offset)
  else none

end Tables

/-- The fields of a segment lie where the structure puts them. -/
theorem segmentOf_quad (e : GdtEntry) :
    segmentOf e.quad = ⟨e.baseHigh ++ (e.baseMiddle ++ e.baseLow), e.flags.extractLsb' 0 4 ++ e.limit,
      e.access, e.flags.extractLsb' 4 4⟩ := by
  obtain ⟨limit, baseLow, baseMiddle, access, flags, baseHigh⟩ := e
  simp only [segmentOf, GdtEntry.quad, Segment.mk.injEq]
  refine ⟨?_, ?_, ?_, ?_⟩ <;> ext i hi <;> grind

theorem gateOf_quad (e : IdtEntry) :
    gateOf e.quad = ⟨e.isrHigh ++ e.isrLow, e.kernelCs, e.attributes⟩ := by
  obtain ⟨isrLow, kernelCs, reserved, attributes, isrHigh⟩ := e
  simp only [gateOf, IdtEntry.quad, Gate.mk.injEq]
  refine ⟨?_, ?_, ?_⟩ <;> ext i hi <;> grind

theorem setWidth_low16 (x : Word) : (x &&& 0xFFFF).setWidth 16 = x.setWidth 16 := by
  have h : (0xFFFF : Word).setWidth 16 = BitVec.allOnes 16 := by decide
  rw [BitVec.setWidth_and, h, BitVec.and_allOnes]

theorem setWidth_low8 (x : Word) : (x &&& 0xFF).setWidth 8 = x.setWidth 8 := by
  have h : (0xFF : Word).setWidth 8 = BitVec.allOnes 8 := by decide
  rw [BitVec.setWidth_and, h, BitVec.and_allOnes]

theorem flags_low (x : Word) (gran : BitVec 8) :
    ((x &&& 0x0F).setWidth 8 ||| (gran &&& 0xF0)).extractLsb' 0 4 = x.setWidth 4 := by
  have h : (0xF0 : BitVec 8).extractLsb' 0 4 = 0#4 := by decide
  have h' : ((0x0F : Word).setWidth 8).extractLsb' 0 4 = BitVec.allOnes 4 := by decide
  rw [BitVec.extractLsb'_or, BitVec.extractLsb'_and, h, BitVec.setWidth_and, BitVec.extractLsb'_and,
    h', BitVec.and_allOnes, BitVec.and_zero, BitVec.or_zero]
  ext i hi
  grind

theorem flags_high (x : Word) (gran : BitVec 8) :
    ((x &&& 0x0F).setWidth 8 ||| (gran &&& 0xF0)).extractLsb' 4 4 = gran.extractLsb' 4 4 := by
  have h : (0xF0 : BitVec 8).extractLsb' 4 4 = BitVec.allOnes 4 := by decide
  have h' : ((0x0F : Word).setWidth 8).extractLsb' 4 4 = 0#4 := by decide
  rw [BitVec.extractLsb'_or, BitVec.extractLsb'_and, h, BitVec.setWidth_and, BitVec.extractLsb'_and,
    h', BitVec.and_allOnes, BitVec.and_zero, BitVec.zero_or]

/-- A descriptor gives back what went into it, the limit reduced to its 20 bits. -/
theorem segmentOf_setGdtGate (base limit : Word) (access gran : BitVec 8) :
    segmentOf (setGdtGate base limit access gran).quad =
      ⟨base, limit.setWidth 20, access, gran.extractLsb' 4 4⟩ := by
  rw [segmentOf_quad, Segment.mk.injEq]
  simp only [setGdtGate, setWidth_low16, setWidth_low8, flags_low, flags_high]
  refine ⟨?_, ?_, trivial, trivial⟩ <;> ext i hi <;> grind

theorem gateOf_idtSetDescriptor (isr : Word) (flags : BitVec 8) :
    gateOf (idtSetDescriptor isr flags).quad = ⟨isr, 0x08, flags⟩ := by
  rw [gateOf_quad, Gate.mk.injEq]
  simp only [idtSetDescriptor, setWidth_low16]
  refine ⟨?_, trivial, trivial⟩
  ext i hi
  grind

namespace Tables

/-- The tables as `initGdt` and `idt_init` set them up. -/
structure Loaded (t : Tables) : Prop where
  gdtLimit : t.gdtLimit = 39
  code : t.gdt 1 = setGdtGate 0 0xFFFFFFF 0x9A 0xCF
  idtLimit : t.idtLimit = 2047

/-- A gate to `isr` takes the processor to `isr`, through the flat code segment. -/
theorem Loaded.target_eq {t : Tables} (h : t.Loaded) {v : ℕ} {isr : Word} (hv : v < 256)
    (hd : t.idt v = idtSetDescriptor isr 0x8E) : t.target v = some isr := by
  have hg : t.gate v = ⟨isr, 0x08, 0x8E⟩ := by rw [gate, hd, gateOf_idtSetDescriptor]
  have hs : t.segment 0x08 = ⟨0, 0xFFFFF, 0x9A, 0xC⟩ := by
    change segmentOf (t.gdt 1).quad = _
    rw [h.code, segmentOf_setGdtGate]
    decide
  have hlast : isr.toNat ≤ (⟨0, 0xFFFFF, 0x9A, 0xC⟩ : Segment).last := by
    have hlt := isr.isLt
    change isr.toNat ≤ 0xFFFFF * 4096 + 4095
    omega
  have hi : 8 * v + 7 ≤ 2047 := by omega
  rw [target, hg, h.gdtLimit, h.idtLimit]
  simp only [hs]
  have hint : (⟨isr, 0x08, 0x8E⟩ : Gate).IsInterrupt := by
    change (0x8E : BitVec 8) &&& 0x9F = 0x8E
    decide
  rw [if_pos ⟨hi, hint, by decide, by decide, by decide, by decide, hlast⟩]
  exact congrArg some (BitVec.zero_add isr)

end Tables
end KallarOS.Interrupts
