import KallarOS.PmmBitmap

namespace KallarOS.Pmm
open ByteMemory

/-- The bytes from `a` to `e` hold exactly the entries `es`, each `size + 4` bytes
after the one before it. -/
def Walks (mem : Mem) : ℕ → List MmapEntry → ℕ → Prop
  | a, [], e => a = e
  | a, x :: es, e => readEntry mem a = x ∧ 20 ≤ x.size ∧ Walks mem (a + x.size + 4) es e

/-- A well-formed multiboot memory map with the entries `es`. -/
structure MemoryMap (mem : Mem) (mbd : MultibootInfo) (es : List MmapEntry) : Prop where
  inside : mbd.mmapAddr + mbd.mmapLength + 0xC0000000 < 2 ^ 32
  walks : Walks mem (mbd.mmapAddr + 0xC0000000) es (mbd.mmapAddr + mbd.mmapLength + 0xC0000000)

theorem Walks.length_le {mem : Mem} {a e : ℕ} {es : List MmapEntry} (h : Walks mem a es e) :
    a + es.length ≤ e := by
  induction es generalizing a with
  | nil => exact h.le
  | cons x es ih =>
    have := ih h.2.2
    have := h.2.1
    simp only [List.length_cons]
    omega

/-- Both passes visit every entry once, in order, and stop. -/
theorem forEachEntry_eq {α : Type} {mem : Mem} {a e : ℕ} {es : List MmapEntry}
    (h : Walks mem a es e) (he : e < 2 ^ 32) (body : MmapEntry → α → Outcome α) {fuel : ℕ}
    (hf : es.length < fuel) (x : α) :
    forEachEntry mem e body fuel a x = es.foldlM (fun x en => body en x) x := by
  induction es generalizing a fuel x with
  | nil =>
    obtain ⟨fuel, rfl⟩ : ∃ k, fuel = k + 1 := ⟨fuel - 1, by simp at hf; omega⟩
    have : ¬ a < e := by have : a = e := h; omega
    simp [forEachEntry, this]
  | cons en es ih =>
    obtain ⟨fuel, rfl⟩ : ∃ k, fuel = k + 1 := ⟨fuel - 1, by simp at hf; omega⟩
    obtain ⟨hr, hs, ht⟩ := h
    have hle := ht.length_le
    have hlt : a < e := by omega
    have hnext : (a + en.size + 4) % 2 ^ 32 = a + en.size + 4 := Nat.mod_eq_of_lt (by omega)
    simp only [forEachEntry, if_pos hlt, hr, hnext, List.foldlM_cons]
    congr 1
    funext y
    exact ih ht (by simpa using hf) y

theorem MemoryMap.forEachEntry {α : Type} {mem : Mem} {mbd : MultibootInfo} {es : List MmapEntry}
    (h : MemoryMap mem mbd es) (body : MmapEntry → α → Outcome α) (x : α) :
    forEachEntry mem mbd.mmapEnd body walkFuel mbd.mmapStart x =
      es.foldlM (fun x en => body en x) x := by
  have hin := h.inside
  have hs : mbd.mmapStart = mbd.mmapAddr + 0xC0000000 := Nat.mod_eq_of_lt (by omega)
  have he : mbd.mmapEnd = mbd.mmapAddr + mbd.mmapLength + 0xC0000000 := Nat.mod_eq_of_lt hin
  have hl := h.walks.length_le
  rw [hs, he]
  exact forEachEntry_eq h.walks hin body (by unfold walkFuel; omega) x

namespace MmapEntry

/-- The entries `pmm_init` looks at. -/
def Usable (e : MmapEntry) : Prop := e.type = multibootMemoryAvailable ∧ e.addr ≤ 0xFFFFFFFF

instance (e : MmapEntry) : Decidable e.Usable := inferInstanceAs (Decidable (_ ∧ _))

/-- The end of a usable entry, clamped below the last page under 4 GiB. -/
def top (e : MmapEntry) : ℕ := if e.stop > 0xFFFFFFFF then 0xFFFFF000 else e.stop

def startFrame (e : MmapEntry) : ℕ := pageAlignUp 64 e.addr % 2 ^ 32 / 4096

def endFrame (e : MmapEntry) : ℕ :=
  (if e.stop > 0xFFFFFFFF then 0xFFFFF000 else pageAlignDown e.stop % 2 ^ 32) / 4096

/-- Frame `j` is freed by the whitelist pass at entry `e`. -/
def Covers (e : MmapEntry) (j : ℕ) : Prop := e.Usable ∧ e.startFrame ≤ j ∧ j < e.endFrame

instance (e : MmapEntry) (j : ℕ) : Decidable (e.Covers j) := inferInstanceAs (Decidable (_ ∧ _))

/-- The bounds that hold of every firmware map: a usable entry starts at or below
0xFFFFF000, its end does not wrap and is not inside the last page under 4 GiB. -/
structure Ordinary (e : MmapEntry) : Prop where
  start : e.Usable → e.addr ≤ 0xFFFFF000
  noWrap : e.Usable → e.addr + e.len < 2 ^ 64
  notLastPage : e.Usable → ¬ (0xFFFFF000 < e.addr + e.len ∧ e.addr + e.len ≤ 0xFFFFFFFF)

/-- `[4096 j, 4096 (j+1))` lies inside the entry. -/
def Holds (e : MmapEntry) (j : ℕ) : Prop :=
  e.type = multibootMemoryAvailable ∧ e.addr ≤ 4096 * j ∧ 4096 * (j + 1) ≤ e.addr + e.len

end MmapEntry

section Passes

variable {es : List MmapEntry}

/-- The highest end of a usable entry. -/
def highestAddr (es : List MmapEntry) : ℕ :=
  es.foldr (fun e h => max (if e.Usable then e.top else 0) h) 0

def maxBlocksOf (es : List MmapEntry) : ℕ := pageAlignUp 32 (highestAddr es) / 4096

theorem highestBody_eq (e : MmapEntry) (h : ℕ) :
    highestBody e h = .ok (max h (if e.Usable then e.top else 0)) := by
  unfold highestBody MmapEntry.Usable MmapEntry.top
  by_cases h1 : e.type = multibootMemoryAvailable
  · by_cases h2 : e.addr ≤ 0xFFFFFFFF
    · simp only [h1, h2, if_true, and_self]
      split_ifs <;> congr 1 <;> omega
    · simp [h1, h2]
  · simp [h1]

theorem highestPass_eq (es : List MmapEntry) (h : ℕ) :
    es.foldlM (fun x en => highestBody en x) h = .ok (max h (highestAddr es)) := by
  induction es generalizing h with
  | nil => simp [highestAddr]
  | cons e es ih =>
    rw [List.foldlM_cons, highestBody_eq, Outcome.ok_bind, ih]
    simp only [highestAddr, List.foldr_cons, max_assoc]

theorem top_le_highestAddr {e : MmapEntry} (he : e ∈ es) (hu : e.Usable) :
    e.top ≤ highestAddr es := by
  induction es with
  | nil => simp at he
  | cons x es ih =>
    simp only [highestAddr, List.foldr_cons]
    rcases List.mem_cons.mp he with rfl | he
    · rw [if_pos hu]
      exact le_max_left _ _
    · exact (ih he).trans (le_max_right _ _)

theorem MmapEntry.Ordinary.top_le {e : MmapEntry} (h : e.Ordinary) (hu : e.Usable) :
    e.top ≤ 0xFFFFF000 := by
  have h1 := h.noWrap hu
  have h2 := h.notLastPage hu
  unfold MmapEntry.top MmapEntry.stop
  split_ifs <;> omega

theorem highestAddr_le_of {c : ℕ} (h : ∀ e ∈ es, e.Usable → e.top ≤ c) : highestAddr es ≤ c := by
  induction es with
  | nil => exact Nat.zero_le c
  | cons e es ih =>
    simp only [highestAddr, List.foldr_cons]
    refine max_le ?_ (ih fun x hx => h x (List.mem_cons_of_mem _ hx))
    split_ifs with hu
    · exact h e List.mem_cons_self hu
    · exact Nat.zero_le _

theorem highestAddr_le (h : ∀ e ∈ es, e.Ordinary) : highestAddr es ≤ 0xFFFFF000 :=
  highestAddr_le_of fun e he hu => (h e he).top_le hu

theorem maxBlocksOf_eq (h : ∀ e ∈ es, e.Ordinary) :
    maxBlocksOf es = (highestAddr es + 0xFFF) / 4096 := by
  have := highestAddr_le h
  unfold maxBlocksOf pageAlignUp pageAlignDown
  omega

theorem maxBlocksOf_lt (es : List MmapEntry) : maxBlocksOf es < 2 ^ 20 := by
  unfold maxBlocksOf pageAlignUp pageAlignDown
  omega

theorem endFrame_le (h : ∀ e ∈ es, e.Ordinary) {e : MmapEntry} (he : e ∈ es) (hu : e.Usable) :
    e.endFrame ≤ maxBlocksOf es := by
  have h1 := (h e he).noWrap hu
  have h2 := (h e he).notLastPage hu
  have h3 := top_le_highestAddr he hu
  rw [maxBlocksOf_eq h]
  unfold MmapEntry.top MmapEntry.stop at h3
  unfold MmapEntry.endFrame MmapEntry.stop pageAlignDown
  -- the top is rounded up and the end of the entry down
  split_ifs at h3 ⊢ <;> omega

/-- For an ordinary entry the inward rounding keeps exactly the frames inside it. -/
theorem covers_iff {e : MmapEntry} (h : e.Ordinary) (j : ℕ) :
    e.Covers j ↔ e.Usable ∧ e.addr ≤ 4096 * j ∧ 4096 * (j + 1) ≤ min (e.addr + e.len) 0xFFFFF000 := by
  unfold MmapEntry.Covers
  refine and_congr_right fun hu => ?_
  have h1 := h.start hu
  have h2 := h.noWrap hu
  have h3 := h.notLastPage hu
  unfold MmapEntry.startFrame MmapEntry.endFrame MmapEntry.stop pageAlignUp pageAlignDown
  split_ifs <;> omega

theorem MmapEntry.Covers.holds {e : MmapEntry} {j : ℕ} (h : e.Ordinary) (hc : e.Covers j) :
    e.Holds j := by
  obtain ⟨hu, h1, h2⟩ := (covers_iff h j).mp hc
  exact ⟨hu.1, h1, h2.trans (min_le_left _ _)⟩

theorem whitelistBody_rewrites {e : MmapEntry} (p : PmmState)
    (h : ∀ j, e.Covers j → j < p.maxBlocks) :
    ∃ p', whitelistBody e p = .ok p' ∧ Rewrites p p' fun j => p.bit j && !decide (e.Covers j) := by
  by_cases hu : e.Usable
  · have hbody : whitelistBody e p = freeFrames p e.startFrame (e.endFrame - e.startFrame) := by
      rw [whitelistBody, if_pos hu.symm]
      rfl
    by_cases hlt : e.startFrame < e.endFrame
    · have hlast := h (e.endFrame - 1) ⟨hu, by omega, by omega⟩
      obtain ⟨p', hp', hr⟩ := freeFrames_rewrites p e.startFrame (e.endFrame - e.startFrame)
        (by omega)
      refine ⟨p', hbody.trans hp', hr.maxBlocks, hr.last, fun j => ?_, hr.counted⟩
      rw [hr.bit, Nat.add_sub_of_le hlt.le]
      congr 2
      exact decide_eq_decide.mpr ⟨fun hj => ⟨hu, hj⟩, fun hj => hj.2⟩
    -- an entry inside one page has no whole frame, and its end may lie before its start
    · rw [Nat.sub_eq_zero_of_le (by omega)] at hbody
      refine ⟨p, hbody, rewrites_refl p fun j => ?_⟩
      have : ¬ e.Covers j := fun hc => by have := hc.2; omega
      simp [this]
  · refine ⟨p, ?_, rewrites_refl p fun j => ?_⟩
    · rw [whitelistBody, if_neg fun hc => hu hc.symm]
    · have : ¬ e.Covers j := fun hc => hu hc.1
      simp [this]

theorem whitelistPass_rewrites (p : PmmState)
    (h : ∀ e ∈ es, ∀ j, e.Covers j → j < p.maxBlocks) :
    ∃ p', es.foldlM (fun x en => whitelistBody en x) p = .ok p' ∧
      Rewrites p p' fun j => p.bit j && !decide (∃ e ∈ es, e.Covers j) := by
  induction es generalizing p with
  | nil => exact ⟨p, rfl, rewrites_refl p fun j => by simp⟩
  | cons e es ih =>
    obtain ⟨q, hq, hr⟩ := whitelistBody_rewrites p (h e List.mem_cons_self)
    obtain ⟨q', hq', hr'⟩ := ih q fun x hx => hr.maxBlocks ▸ h x (List.mem_cons_of_mem _ hx)
    refine ⟨q', by rw [List.foldlM_cons, hq, Outcome.ok_bind, hq'], hr.trans ?_⟩
    refine ⟨hr'.maxBlocks, hr'.last, fun j => ?_, hr'.counted⟩
    rw [hr'.bit, hr.bit, Bool.and_assoc, ← Bool.not_or, ← Bool.decide_or]
    congr 2
    exact decide_eq_decide.mpr (by simp)

end Passes

/-- The frames that meet the bytes `[start, stop)` of physical memory. -/
def Meets (start stop j : ℕ) : Prop := start / 4096 ≤ j ∧ j < (stop + 0xFFF) / 4096

instance (start stop j : ℕ) : Decidable (Meets start stop j) := inferInstanceAs (Decidable (_ ∧ _))

theorem markRegion_rewrites (p : PmmState) (start stop : ℕ) (hs : stop ≤ 0xFFFFF000) :
    ∃ p', pmmMarkRegionUsed p start stop = .ok p' ∧
      Rewrites p p' fun j => p.bit j || decide (Meets start stop j ∧ j < p.maxBlocks) := by
  have h1 : pageAlignDown start / 4096 = start / 4096 := by unfold pageAlignDown; omega
  have h2 : pageAlignUp 32 stop / 4096 = (stop + 0xFFF) / 4096 := by
    unfold pageAlignUp pageAlignDown; omega
  by_cases hle : start / 4096 ≤ (stop + 0xFFF) / 4096
  · obtain ⟨p', hp', hr⟩ := markFrames_rewrites p (start / 4096)
      ((stop + 0xFFF) / 4096 - start / 4096) (by omega)
    refine ⟨p', by simp only [pmmMarkRegionUsed, h1, h2, hp'], hr.maxBlocks, hr.last, fun j => ?_,
      hr.counted⟩
    rw [hr.bit, Nat.add_sub_of_le hle]
    rfl
  · refine ⟨p, ?_, rewrites_refl p fun j => ?_⟩
    · have h0 : (stop + 0xFFF) / 4096 - start / 4096 = 0 := by omega
      simp only [pmmMarkRegionUsed, h1, h2, h0, markFrames]
    · have : ¬ Meets start stop j := fun hm => by unfold Meets at hm; omega
      simp [this]

/-- The frames `pmm_init` never leaves free: the kernel image, the bitmap and the
first megabyte. -/
def Layout.Protects (l : Layout) (maxBlocks j : ℕ) : Prop :=
  Meets (l.kernelStart - 0xC0000000) (l.kernelEnd - 0xC0000000) j ∨
    Meets (l.bitmapAddr - 0xC0000000)
      (l.bitmapAddr + bitmapSizeBytes maxBlocks - 0xC0000000) j ∨
    Meets 0 0x100000 j

instance (l : Layout) (m j : ℕ) : Decidable (l.Protects m j) := inferInstanceAs (Decidable (_ ∨ _))

/-- The state `pmm_init` leaves behind. -/
structure Initialized (l : Layout) (es : List MmapEntry) (p : PmmState) : Prop where
  maxBlocks : p.maxBlocks = maxBlocksOf es
  last : p.lastAllocatedBit = 0
  bit : ∀ j, p.bit j = (!decide (∃ e ∈ es, e.Covers j) ||
    decide (l.Protects p.maxBlocks j ∧ j < p.maxBlocks))
  counted : p.Counted

/-- It is enough that no entry covers a frame past the last one. -/
theorem pmmInit_of_covers (l : Layout) {mem : Mem} {mbd : MultibootInfo} {es : List MmapEntry}
    (hm : MemoryMap mem mbd es) (hc : ∀ e ∈ es, ∀ j, e.Covers j → j < maxBlocksOf es) :
    ∃ p, pmmInit l mem mbd = .ok p ∧ Initialized l es p := by
  have hlt := maxBlocksOf_lt es
  let p₀ : PmmState :=
    { array := fun _ => 0xFFFFFFFF#32, maxBlocks := maxBlocksOf es, usedBlocks := maxBlocksOf es,
      lastAllocatedBit := 0 }
  have hbit₀ : ∀ j, p₀.bit j = true := by
    intro j
    have : j % 32 < 32 := Nat.mod_lt _ (by decide)
    have hones : (0xFFFFFFFF#32) = BitVec.allOnes 32 := by decide
    simp only [PmmState.bit, p₀, hones, BitVec.getLsbD_allOnes, this, decide_true]
  have hcount₀ : p₀.Counted := by
    refine ⟨by simp only [p₀]; omega, ?_⟩
    simp [PmmState.usedFrames, hbit₀, p₀]
  have hlay := l.room
  have hbeh := l.behind
  have hsz : bitmapSizeBytes (maxBlocksOf es) ≤ 0x20000 := by unfold bitmapSizeBytes; omega
  -- all used, then the available regions freed, then the three regions taken again
  obtain ⟨p₁, h₁, r₁⟩ := whitelistPass_rewrites p₀ hc
  obtain ⟨p₂, h₂, r₂⟩ := markRegion_rewrites p₁ (l.kernelStart - 0xC0000000)
    (l.kernelEnd - 0xC0000000) (by omega)
  obtain ⟨p₃, h₃, r₃⟩ := markRegion_rewrites p₂ (l.bitmapAddr - 0xC0000000)
    (l.bitmapAddr + bitmapSizeBytes (maxBlocksOf es) - 0xC0000000) (by omega)
  obtain ⟨p₄, h₄, r₄⟩ := markRegion_rewrites p₃ 0 0x100000 (by omega)
  have hmax : p₄.maxBlocks = maxBlocksOf es := by
    rw [r₄.maxBlocks, r₃.maxBlocks, r₂.maxBlocks, r₁.maxBlocks]
  refine ⟨p₄, ?_, hmax, ?_, fun j => ?_, ?_⟩
  · simp only [pmmInit, hm.forEachEntry, highestPass_eq, Outcome.ok_bind, Nat.zero_max]
    change (List.foldlM (fun x en => whitelistBody en x) p₀ es >>= _) = _
    rw [h₁, Outcome.ok_bind, h₂, Outcome.ok_bind]
    change (pmmMarkRegionUsed p₂ _ (_ + bitmapSizeBytes (maxBlocksOf es) - _) >>= _) = _
    rw [h₃, Outcome.ok_bind, h₄]
  · rw [r₄.last, r₃.last, r₂.last, r₁.last]
  · rw [r₄.bit, r₃.bit, r₂.bit, r₁.bit, hbit₀, hmax, r₃.maxBlocks, r₂.maxBlocks, r₁.maxBlocks,
      Bool.true_and, Bool.or_assoc, Bool.or_assoc, ← Bool.decide_or, ← Bool.decide_or]
    congr 1
    apply decide_eq_decide.mpr
    change _ ↔ (_ ∨ _ ∨ _) ∧ _
    rw [or_and_right, or_and_right]
  · exact r₄.counted (r₃.counted (r₂.counted (r₁.counted hcount₀)))

theorem pmmInit_ok (l : Layout) {mem : Mem} {mbd : MultibootInfo} {es : List MmapEntry}
    (hm : MemoryMap mem mbd es) (ho : ∀ e ∈ es, e.Ordinary) :
    ∃ p, pmmInit l mem mbd = .ok p ∧ Initialized l es p :=
  pmmInit_of_covers l hm fun _ he _ hj => hj.2.2.trans_le (endFrame_le ho he hj.1)

end KallarOS.Pmm
