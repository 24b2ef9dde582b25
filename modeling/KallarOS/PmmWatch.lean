import KallarOS.PmmInit

namespace KallarOS.Pmm
open ByteMemory

/-- The allocator with the bitmap bits it has read, set or cleared so far. -/
structure Watched where
  pmm : PmmState
  touched : List ℕ

namespace Watched

def bitmapSet (w : Watched) (bit : ℕ) : Outcome Watched := do
  let p ← Pmm.bitmapSet w.pmm bit
  return ⟨p, bit :: w.touched⟩

def bitmapClear (w : Watched) (bit : ℕ) : Outcome Watched := do
  let p ← Pmm.bitmapClear w.pmm bit
  return ⟨p, bit :: w.touched⟩

def bitmapCheck (w : Watched) (bit : ℕ) : Outcome (Bool × Watched) := do
  let used ← Pmm.bitmapCheck w.pmm bit
  return (used, ⟨w.pmm, bit :: w.touched⟩)

def setUsedBlocks (w : Watched) (n : ℕ) : Watched := { w with pmm.usedBlocks := n }

def pmmMarkUsed (w : Watched) (physicalAddr : ℕ) : Outcome Watched := do
  let frameIndex := physicalAddr / 4096
  if w.pmm.maxBlocks ≤ frameIndex then
    return w
  let (used, w) ← w.bitmapCheck frameIndex
  if used then
    return w
  let w ← w.bitmapSet frameIndex
  return w.setUsedBlocks (inc32 w.pmm.usedBlocks)

def markFrames (w : Watched) (i : ℕ) : ℕ → Outcome Watched
  | 0 => .ok w
  | n + 1 => do
    let w ← w.pmmMarkUsed (i * 4096 % 2 ^ 32)
    markFrames w (i + 1) n

def pmmMarkRegionUsed (w : Watched) (startAddr endAddr : ℕ) : Outcome Watched :=
  let startFrame := pageAlignDown startAddr / 4096
  let endFrame := pageAlignUp 32 endAddr / 4096
  w.markFrames startFrame (endFrame - startFrame)

def freeOne (w : Watched) (i : ℕ) : Outcome Watched := do
  let (used, w) ← w.bitmapCheck i
  if used then
    let w ← w.bitmapClear i
    return w.setUsedBlocks (dec32 w.pmm.usedBlocks)
  else
    return w

def freeFrames (w : Watched) (i : ℕ) : ℕ → Outcome Watched
  | 0 => .ok w
  | n + 1 => do
    let w ← w.freeOne i
    freeFrames w (i + 1) n

def whitelistBody (e : MmapEntry) (w : Watched) : Outcome Watched :=
  if e.addr ≤ 0xFFFFFFFF ∧ e.type = multibootMemoryAvailable then
    let regionStart := pageAlignUp 64 e.addr % 2 ^ 32
    let regionEnd := if e.stop > 0xFFFFFFFF then 0xFFFFF000 else pageAlignDown e.stop % 2 ^ 32
    let startFrame := regionStart / 4096
    let endFrame := regionEnd / 4096
    w.freeFrames startFrame (endFrame - startFrame)
  else .ok w

/-- `pmm_init` with its bitmap accesses recorded. -/
def pmmInit (l : Layout) (mem : Mem) (mbd : MultibootInfo) : Outcome Watched := do
  let highestAddr ← forEachEntry mem mbd.mmapEnd highestBody walkFuel mbd.mmapStart 0
  let maxBlocks := pageAlignUp 32 highestAddr / 4096
  let p : PmmState :=
    { array := fun _ => 0xFFFFFFFF#32, maxBlocks := maxBlocks, usedBlocks := maxBlocks,
      lastAllocatedBit := 0 }
  let w ← forEachEntry mem mbd.mmapEnd whitelistBody walkFuel mbd.mmapStart ⟨p, []⟩
  let w ← w.pmmMarkRegionUsed (l.kernelStart - 0xC0000000) (l.kernelEnd - 0xC0000000)
  let w ← w.pmmMarkRegionUsed (l.bitmapAddr - 0xC0000000)
    (l.bitmapAddr + bitmapSizeBytes maxBlocks - 0xC0000000)
  w.pmmMarkRegionUsed 0 0x100000

/-- `x` does from `w` on what `y` does and touches the bits `B` on the way. -/
structure Records (w : Watched) (x : Outcome Watched) (y : Outcome PmmState) (B : ℕ → Prop) :
    Prop where
  erases : x.map pmm = y
  touched : ∀ w', x = .ok w' → ∀ b, b ∈ w'.touched ↔ b ∈ w.touched ∨ B b
  maxBlocks : ∀ w', x = .ok w' → w'.pmm.maxBlocks = w.pmm.maxBlocks

section Records

variable {w : Watched} {x : Outcome Watched} {y : Outcome PmmState} {B C : ℕ → Prop}

theorem Records.congr (h : Records w x y B) (hB : ∀ b, B b ↔ C b) : Records w x y C where
  erases := h.erases
  touched w' hw b := by rw [h.touched w' hw b, hB]
  maxBlocks := h.maxBlocks

theorem records_ok (w : Watched) (hB : ∀ b, ¬ B b) : Records w (.ok w) (.ok w.pmm) B where
  erases := rfl
  touched w' hw b := by
    cases hw
    simp [hB b]
  maxBlocks w' hw := by cases hw; rfl

theorem Records.bind {f : Watched → Outcome Watched} {g : PmmState → Outcome PmmState}
    (h : Records w x y B)
    (hf : ∀ w', w'.pmm.maxBlocks = w.pmm.maxBlocks → Records w' (f w') (g w'.pmm) C) :
    Records w (x >>= f) (y >>= g) fun b => B b ∨ C b := by
  cases x with
  -- both stop at the same place, and nothing is claimed of what was touched then
  | error e =>
    obtain rfl : y = .error e := h.erases.symm
    exact ⟨rfl, nofun, nofun⟩
  | ok w₁ =>
    obtain rfl : y = .ok w₁.pmm := h.erases.symm
    have hmax := h.maxBlocks w₁ rfl
    have h₁ := hf w₁ hmax
    refine ⟨h₁.erases, ?_, ?_⟩
    · intro w' hw b
      rw [h₁.touched w' hw b, h.touched w₁ rfl b, or_assoc]
    · intro w' hw
      rw [h₁.maxBlocks w' hw, hmax]

end Records

section Accesses

variable (w : Watched)

theorem freeOne_records (i : ℕ) : Records w (w.freeOne i) (Pmm.freeOne w.pmm i) (· = i) := by
  unfold freeOne Pmm.freeOne bitmapCheck bitmapClear Pmm.bitmapCheck Pmm.bitmapClear bitmapWord
  by_cases hi : i / 32 < w.pmm.words
  · simp only [hi, if_true, Outcome.ok_bind, Outcome.pure_eq_ok]
    -- a bit that is free already is looked at all the same
    generalize decide (w.pmm.array (i / 32) &&& (1#32 <<< (i % 32)) ≠ 0#32) = used
    cases used with
    | true => exact ⟨rfl, by rintro _ ⟨⟩ b; simp [setUsedBlocks, or_comm], by rintro _ ⟨⟩; rfl⟩
    | false => exact ⟨rfl, by rintro _ ⟨⟩ b; simp [or_comm], by rintro _ ⟨⟩; rfl⟩
  · simp only [hi, if_false, Outcome.error_bind]
    exact ⟨rfl, nofun, nofun⟩

theorem freeFrames_records (i n : ℕ) :
    Records w (w.freeFrames i n) (Pmm.freeFrames w.pmm i n) fun b => i ≤ b ∧ b < i + n := by
  induction n generalizing w i with
  | zero => exact records_ok w fun b => by omega
  | succ n ih =>
    refine ((w.freeOne_records i).bind fun w' _ => ih w' (i + 1)).congr ?_
    intro b
    omega

theorem whitelistBody_records (e : MmapEntry) :
    Records w (whitelistBody e w) (Pmm.whitelistBody e w.pmm) e.Covers := by
  unfold whitelistBody Pmm.whitelistBody
  by_cases hu : e.addr ≤ 0xFFFFFFFF ∧ e.type = multibootMemoryAvailable
  · rw [if_pos hu, if_pos hu]
    refine (w.freeFrames_records e.startFrame (e.endFrame - e.startFrame)).congr ?_
    intro b
    change _ ↔ e.Usable ∧ _ ∧ _
    have huse : e.Usable := hu.symm
    simp only [huse, true_and]
    omega
  · rw [if_neg hu, if_neg hu]
    exact records_ok w fun b hb => hu hb.1.symm

theorem whitelistPass_records (es : List MmapEntry) :
    Records w (es.foldlM (fun w e => whitelistBody e w) w)
      (es.foldlM (fun p e => Pmm.whitelistBody e p) w.pmm) fun b => ∃ e ∈ es, e.Covers b := by
  induction es generalizing w with
  | nil => exact records_ok w (by simp)
  | cons e es ih =>
    rw [List.foldlM_cons, List.foldlM_cons]
    refine ((w.whitelistBody_records e).bind fun w' _ => ih w').congr ?_
    simp

/-- `pmm_mark_used` looks at the bitmap only below `max_blocks`. -/
theorem pmmMarkUsed_records (a : ℕ) :
    Records w (w.pmmMarkUsed a) (Pmm.pmmMarkUsed w.pmm a)
      fun b => b = a / 4096 ∧ b < w.pmm.maxBlocks := by
  unfold pmmMarkUsed Pmm.pmmMarkUsed
  by_cases hmax : w.pmm.maxBlocks ≤ a / 4096
  · simp only [hmax, if_true]
    exact records_ok w fun b => by omega
  · have hi : a / 4096 / 32 < w.pmm.words := by
      unfold PmmState.words
      omega
    have hB : ∀ b, (b = a / 4096 ∧ b < w.pmm.maxBlocks) ↔ b = a / 4096 := fun b => by omega
    simp only [hmax, if_false, hB]
    unfold bitmapCheck bitmapSet Pmm.bitmapCheck Pmm.bitmapSet bitmapWord
    simp only [hi, if_true, Outcome.ok_bind, Outcome.pure_eq_ok]
    generalize decide (w.pmm.array (a / 4096 / 32) &&& (1#32 <<< (a / 4096 % 32)) ≠ 0#32) = used
    cases used with
    | true => exact ⟨rfl, by rintro _ ⟨⟩ b; simp [or_comm], by rintro _ ⟨⟩; rfl⟩
    | false => exact ⟨rfl, by rintro _ ⟨⟩ b; simp [setUsedBlocks]; tauto, by rintro _ ⟨⟩; rfl⟩

theorem markFrames_records (i n : ℕ) (h : i + n ≤ 2 ^ 20) :
    Records w (w.markFrames i n) (Pmm.markFrames w.pmm i n)
      fun b => (i ≤ b ∧ b < i + n) ∧ b < w.pmm.maxBlocks := by
  induction n generalizing w i with
  | zero => exact records_ok w fun b => by omega
  | succ n ih =>
    have hi : i * 4096 % 2 ^ 32 / 4096 = i := by omega
    have hrest : ∀ w' : Watched, w'.pmm.maxBlocks = w.pmm.maxBlocks →
        Records w' (w'.markFrames (i + 1) n) (Pmm.markFrames w'.pmm (i + 1) n)
          fun b => (i + 1 ≤ b ∧ b < i + 1 + n) ∧ b < w.pmm.maxBlocks := by
      intro w' hw
      rw [← hw]
      exact ih w' (i + 1) (by omega)
    refine ((w.pmmMarkUsed_records _).bind hrest).congr ?_
    intro b
    rw [hi]
    omega

theorem markRegion_records (start stop : ℕ) (hs : stop ≤ 0xFFFFF000) :
    Records w (w.pmmMarkRegionUsed start stop) (Pmm.pmmMarkRegionUsed w.pmm start stop)
      fun b => Meets start stop b ∧ b < w.pmm.maxBlocks := by
  have h1 : pageAlignDown start / 4096 = start / 4096 := by unfold pageAlignDown; omega
  have h2 : pageAlignUp 32 stop / 4096 = (stop + 0xFFF) / 4096 := by
    unfold pageAlignUp pageAlignDown; omega
  unfold pmmMarkRegionUsed Pmm.pmmMarkRegionUsed
  simp only [h1, h2]
  by_cases hle : start / 4096 ≤ (stop + 0xFFF) / 4096
  · refine (w.markFrames_records _ _ (by omega)).congr ?_
    intro b
    unfold Meets
    omega
  · rw [Nat.sub_eq_zero_of_le (by omega)]
    refine records_ok w fun b => ?_
    unfold Meets
    omega

end Accesses

/-- The bits `pmm_init` touches are those of the whitelisted frames, whatever
`max_blocks` is, and those of the protected frames below it. -/
theorem pmmInit_records (l : Layout) {mem : Mem} {mbd : MultibootInfo} {es : List MmapEntry}
    (hm : MemoryMap mem mbd es) :
    (pmmInit l mem mbd).map pmm = Pmm.pmmInit l mem mbd ∧
      ∀ w, pmmInit l mem mbd = .ok w → w.pmm.maxBlocks = maxBlocksOf es ∧
        ∀ b, b ∈ w.touched ↔ (∃ e ∈ es, e.Covers b) ∨
          (l.Protects (maxBlocksOf es) b ∧ b < maxBlocksOf es) := by
  have hlt := maxBlocksOf_lt es
  have hroom := l.room
  have hbehind := l.behind
  have hsize : bitmapSizeBytes (maxBlocksOf es) ≤ 0x20000 := by unfold bitmapSizeBytes; omega
  let w₀ : Watched := ⟨⟨fun _ => 0xFFFFFFFF#32, maxBlocksOf es, maxBlocksOf es, 0⟩, []⟩
  let B (start stop b : ℕ) : Prop := Meets start stop b ∧ b < maxBlocksOf es
  have hmark : ∀ (w : Watched) (start stop : ℕ), stop ≤ 0xFFFFF000 →
      w.pmm.maxBlocks = maxBlocksOf es → Records w (w.pmmMarkRegionUsed start stop)
        (Pmm.pmmMarkRegionUsed w.pmm start stop) (B start stop) := by
    intro w start stop hstop hw
    have := w.markRegion_records start stop hstop
    rwa [hw] at this
  have hx : pmmInit l mem mbd = (es.foldlM (fun w e => whitelistBody e w) w₀ >>= fun w₁ =>
      w₁.pmmMarkRegionUsed (l.kernelStart - 0xC0000000) (l.kernelEnd - 0xC0000000) >>= fun w₂ =>
      w₂.pmmMarkRegionUsed (l.bitmapAddr - 0xC0000000)
        (l.bitmapAddr + bitmapSizeBytes (maxBlocksOf es) - 0xC0000000) >>= fun w₃ =>
      w₃.pmmMarkRegionUsed 0 0x100000) := by
    simp only [pmmInit, hm.forEachEntry, highestPass_eq, Outcome.ok_bind, Nat.zero_max]
    rfl
  have hy : Pmm.pmmInit l mem mbd = (es.foldlM (fun p e => Pmm.whitelistBody e p) w₀.pmm >>=
      fun p₁ => Pmm.pmmMarkRegionUsed p₁ (l.kernelStart - 0xC0000000)
        (l.kernelEnd - 0xC0000000) >>= fun p₂ =>
      Pmm.pmmMarkRegionUsed p₂ (l.bitmapAddr - 0xC0000000)
        (l.bitmapAddr + bitmapSizeBytes (maxBlocksOf es) - 0xC0000000) >>= fun p₃ =>
      Pmm.pmmMarkRegionUsed p₃ 0 0x100000) := by
    simp only [Pmm.pmmInit, hm.forEachEntry, highestPass_eq, Outcome.ok_bind, Nat.zero_max]
    rfl
  have hrec : Records w₀ (pmmInit l mem mbd) (Pmm.pmmInit l mem mbd) fun b =>
      (∃ e ∈ es, e.Covers b) ∨ B (l.kernelStart - 0xC0000000) (l.kernelEnd - 0xC0000000) b ∨
        B (l.bitmapAddr - 0xC0000000)
          (l.bitmapAddr + bitmapSizeBytes (maxBlocksOf es) - 0xC0000000) b ∨ B 0 0x100000 b := by
    rw [hx, hy]
    refine (w₀.whitelistPass_records es).bind fun w₁ hw₁ => ?_
    refine (hmark w₁ _ _ (by omega) hw₁).bind fun w₂ hw₂ => ?_
    refine (hmark w₂ _ _ (by omega) (hw₂.trans hw₁)).bind fun w₃ hw₃ => ?_
    exact hmark w₃ 0 0x100000 (by omega) (hw₃.trans (hw₂.trans hw₁))
  refine ⟨hrec.erases, ?_⟩
  intro w hw
  refine ⟨hrec.maxBlocks w hw, ?_⟩
  intro b
  have hno : b ∉ w₀.touched := by simp [w₀]
  rw [hrec.touched w hw b, or_iff_right hno, Layout.Protects, or_and_right, or_and_right]

end Watched

end KallarOS.Pmm
