import KallarOS.PmmModel

namespace KallarOS.Pmm

namespace PmmState

def setBit (p : PmmState) (b : ℕ) : PmmState :=
  storeWord p (b / 32) (p.array (b / 32) ||| (1#32 <<< (b % 32)))

def clearBit (p : PmmState) (b : ℕ) : PmmState :=
  storeWord p (b / 32) (p.array (b / 32) &&& ~~~(1#32 <<< (b % 32)))

/-- Frame `b` becomes used and is counted. -/
def take (p : PmmState) (b : ℕ) : PmmState :=
  { p.setBit b with usedBlocks := inc32 p.usedBlocks }

/-- Frame `b` becomes free and is no longer counted. -/
def release (p : PmmState) (b : ℕ) : PmmState :=
  { p.clearBit b with usedBlocks := dec32 p.usedBlocks }

def usedFrames (p : PmmState) : Finset ℕ := {i ∈ Finset.range p.maxBlocks | p.bit i = true}

/-- The counter agrees with the bitmap. -/
structure Counted (p : PmmState) : Prop where
  small : p.maxBlocks < 2 ^ 32
  count : p.usedBlocks = p.usedFrames.card

end PmmState

section Bits

variable (p : PmmState) (b i : ℕ)

theorem getLsbD_one_shift {k j : ℕ} (hj : j < 32) :
    (1#32 <<< k).getLsbD j = decide (j = k) := by
  rw [BitVec.getLsbD_shiftLeft, BitVec.getLsbD_one]
  by_cases h : j = k
  · subst h; simp [hj]
  · by_cases h' : j < k
    · simp [h, h', hj]
    · have : ¬ j - k = 0 := by omega
      simp [h, this]

theorem split_eq_iff : i / 32 = b / 32 ∧ i % 32 = b % 32 ↔ i = b := by omega

@[simp] theorem bit_setBit : (p.setBit b).bit i = (decide (i = b) || p.bit i) := by
  simp only [PmmState.bit, PmmState.setBit, storeWord, Function.update_apply]
  by_cases hw : i / 32 = b / 32
  · rw [if_pos hw, BitVec.getLsbD_or, getLsbD_one_shift (by omega), ← hw, Bool.or_comm]
    congr 2
    exact propext ⟨fun h => (split_eq_iff b i).mp ⟨hw, h⟩, fun h => by rw [h]⟩
  · have : i ≠ b := fun h => hw (by rw [h])
    simp [hw, this]

@[simp] theorem bit_clearBit : (p.clearBit b).bit i = (!decide (i = b) && p.bit i) := by
  simp only [PmmState.bit, PmmState.clearBit, storeWord, Function.update_apply]
  by_cases hw : i / 32 = b / 32
  · rw [if_pos hw, BitVec.getLsbD_and, BitVec.getLsbD_not, getLsbD_one_shift (by omega), ← hw,
      Bool.and_comm]
    have : decide (i % 32 < 32) = true := decide_eq_true (by omega)
    rw [this, Bool.true_and]
    congr 3
    exact propext ⟨fun h => (split_eq_iff b i).mp ⟨hw, h⟩, fun h => by rw [h]⟩
  · have : i ≠ b := fun h => hw (by rw [h])
    simp [hw, this]

@[simp] theorem bit_take : (p.take b).bit i = (decide (i = b) || p.bit i) := bit_setBit p b i

theorem array_release : (p.release b).array = (p.clearBit b).array := rfl

@[simp] theorem bit_release : (p.release b).bit i = (!decide (i = b) && p.bit i) := by
  rw [← bit_clearBit, PmmState.bit, array_release, PmmState.bit]

@[simp] theorem maxBlocks_take : (p.take b).maxBlocks = p.maxBlocks := rfl
@[simp] theorem maxBlocks_release : (p.release b).maxBlocks = p.maxBlocks := rfl
@[simp] theorem lastAllocatedBit_take : (p.take b).lastAllocatedBit = p.lastAllocatedBit := rfl
@[simp] theorem lastAllocatedBit_release : (p.release b).lastAllocatedBit = p.lastAllocatedBit := rfl

end Bits

section Routines

variable {p : PmmState} {b : ℕ}

theorem bitmapWord_ok (h : b < p.maxBlocks) : bitmapWord p (b / 32) = .ok (p.array (b / 32)) :=
  if_pos (by unfold PmmState.words; omega)

theorem and_one_shift_ne_zero (w : BitVec 32) (k : ℕ) (hk : k < 32) :
    decide (w &&& (1#32 <<< k) ≠ 0#32) = w.getLsbD k := by
  cases hb : w.getLsbD k with
  | true =>
    rw [decide_eq_true_iff]
    intro h
    have := congrArg (fun v => v.getLsbD k) h
    simp only [BitVec.getLsbD_and, hb, getLsbD_one_shift hk, decide_true, Bool.and_self,
      BitVec.getLsbD_zero] at this
    exact Bool.noConfusion this
  | false =>
    rw [decide_eq_false_iff_not, not_not]
    apply BitVec.eq_of_getLsbD_eq
    intro j hj
    rw [BitVec.getLsbD_and, getLsbD_one_shift hj, BitVec.getLsbD_zero]
    by_cases h : j = k
    · simp [h, hb]
    · simp [h]

theorem bitmapCheck_ok (h : b < p.maxBlocks) : bitmapCheck p b = .ok (p.bit b) := by
  simp only [bitmapCheck, bitmapWord_ok h, Outcome.ok_bind, Outcome.pure_eq_ok]
  rw [and_one_shift_ne_zero _ _ (by omega)]
  rfl

theorem bitmapSet_ok (h : b < p.maxBlocks) : bitmapSet p b = .ok (p.setBit b) := by
  simp [bitmapSet, bitmapWord_ok h, PmmState.setBit]

theorem bitmapClear_ok (h : b < p.maxBlocks) : bitmapClear p b = .ok (p.clearBit b) := by
  simp [bitmapClear, bitmapWord_ok h, PmmState.clearBit]

theorem pmmMarkUsed_eq (p : PmmState) (a : ℕ) :
    pmmMarkUsed p a =
      .ok (if p.maxBlocks ≤ a / 4096 ∨ p.bit (a / 4096) then p else p.take (a / 4096)) := by
  by_cases h : p.maxBlocks ≤ a / 4096
  · simp [pmmMarkUsed, h]
  · have hb : a / 4096 < p.maxBlocks := by omega
    simp only [pmmMarkUsed, h, if_false, bitmapCheck_ok hb, Outcome.ok_bind, bitmapSet_ok hb]
    by_cases hu : p.bit (a / 4096)
    · simp [hu]
    · simp only [hu]
      rfl

/-- Releasing panics exactly on a frame of the bitmap that is already free. -/
theorem pmmFreeFrame_eq (p : PmmState) (a : ℕ) :
    pmmFreeFrame p a =
      if p.maxBlocks ≤ a / 4096 then .ok p
      else if p.bit (a / 4096) then .ok (p.release (a / 4096)) else .error (.panic "Double free") := by
  by_cases h : p.maxBlocks ≤ a / 4096
  · simp [pmmFreeFrame, h]
  · have hb : a / 4096 < p.maxBlocks := by omega
    simp only [pmmFreeFrame, h, if_false, bitmapCheck_ok hb, Outcome.ok_bind, bitmapClear_ok hb]
    rfl

/-- Giving back a used frame of the bitmap. -/
theorem pmmFreeFrame_used (hlt : b < p.maxBlocks) (hu : p.bit b = true) :
    pmmFreeFrame p (b * 4096) = .ok (p.release b) := by
  rw [pmmFreeFrame_eq, Nat.mul_div_cancel _ (by decide : 0 < 4096), if_neg (by omega), if_pos hu]

end Routines

section Counting

variable {p : PmmState} {b : ℕ}

theorem PmmState.mem_usedFrames {i : ℕ} :
    i ∈ p.usedFrames ↔ i < p.maxBlocks ∧ p.bit i = true := by
  simp [PmmState.usedFrames]

theorem usedFrames_card_le (p : PmmState) : p.usedFrames.card ≤ p.maxBlocks := by
  rw [PmmState.usedFrames]
  exact (Finset.card_filter_le _ _).trans (Finset.card_range _).le

theorem usedFrames_take (hb : b < p.maxBlocks) : (p.take b).usedFrames = insert b p.usedFrames := by
  ext i
  simp only [Finset.mem_insert, PmmState.mem_usedFrames, bit_take, maxBlocks_take]
  by_cases hi : i = b
  · simp [hi, hb]
  · simp [hi]

theorem usedFrames_release (p : PmmState) (b : ℕ) :
    (p.release b).usedFrames = p.usedFrames.erase b := by
  ext i
  simp only [Finset.mem_erase, PmmState.mem_usedFrames, bit_release, maxBlocks_release]
  by_cases hi : i = b
  · simp [hi]
  · simp [hi]

theorem counted_take (hb : b < p.maxBlocks) (hf : p.bit b = false) (h : p.Counted) :
    (p.take b).Counted := by
  have hset := usedFrames_take hb
  have hnot : b ∉ p.usedFrames := by simp [PmmState.mem_usedFrames, hf]
  have hcard := usedFrames_card_le (p.take b)
  rw [hset, Finset.card_insert_of_notMem hnot, maxBlocks_take] at hcard
  have hs := h.small
  refine ⟨hs, ?_⟩
  rw [hset, Finset.card_insert_of_notMem hnot, ← h.count]
  rw [← h.count] at hcard
  exact Nat.mod_eq_of_lt (by omega)

theorem counted_release (hb : b < p.maxBlocks) (hu : p.bit b = true) (h : p.Counted) :
    (p.release b).Counted := by
  have hset := usedFrames_release p b
  have hmem : b ∈ p.usedFrames := PmmState.mem_usedFrames.mpr ⟨hb, hu⟩
  have hpos := Finset.card_pos.mpr ⟨b, hmem⟩
  have hcard := usedFrames_card_le p
  have hs := h.small
  refine ⟨hs, ?_⟩
  rw [hset, Finset.card_erase_of_mem hmem, ← h.count]
  rw [← h.count] at hpos hcard
  change dec32 p.usedBlocks = _
  unfold dec32
  omega

end Counting

/-- `p'` is `p` with the bitmap rewritten to `g`; the rest is kept and the
counter follows. -/
structure Rewrites (p p' : PmmState) (g : ℕ → Bool) : Prop where
  maxBlocks : p'.maxBlocks = p.maxBlocks
  last : p'.lastAllocatedBit = p.lastAllocatedBit
  bit : ∀ j, p'.bit j = g j
  counted : p.Counted → p'.Counted

theorem rewrites_refl (p : PmmState) {g : ℕ → Bool} (h : ∀ j, p.bit j = g j) : Rewrites p p g :=
  ⟨rfl, rfl, h, id⟩

theorem Rewrites.trans {p p' p'' : PmmState} {g g' : ℕ → Bool} (h : Rewrites p p' g)
    (h' : Rewrites p' p'' g') : Rewrites p p'' g' :=
  ⟨h'.maxBlocks.trans h.maxBlocks, h'.last.trans h.last, h'.bit, fun hc => h'.counted (h.counted hc)⟩

theorem markUsed_rewrites (p : PmmState) (a : ℕ) :
    ∃ p', pmmMarkUsed p a = .ok p' ∧
      Rewrites p p' fun j => p.bit j || decide (j = a / 4096 ∧ j < p.maxBlocks) := by
  rw [pmmMarkUsed_eq]
  refine ⟨_, rfl, ?_⟩
  split_ifs with h
  · apply rewrites_refl
    intro j
    by_cases hj : j = a / 4096
    · subst hj
      rcases h with h | h
      · have : ¬ a / 4096 < p.maxBlocks := by omega
        simp [this]
      · simp [h]
    · simp [hj]
  · push Not at h
    simp only [Bool.not_eq_true] at h
    refine ⟨rfl, rfl, fun j => ?_, counted_take h.1 h.2⟩
    rw [bit_take, Bool.or_comm]
    by_cases hj : j = a / 4096
    · simp [hj, h.1]
    · simp [hj]

theorem markFrames_rewrites (p : PmmState) (i n : ℕ) (h : i + n ≤ 2 ^ 20) :
    ∃ p', markFrames p i n = .ok p' ∧
      Rewrites p p' fun j => p.bit j || decide ((i ≤ j ∧ j < i + n) ∧ j < p.maxBlocks) := by
  induction n generalizing p i with
  | zero =>
    refine ⟨p, rfl, rewrites_refl p fun j => ?_⟩
    rw [decide_eq_false (by omega)]
    simp
  | succ n ih =>
    have hi : i * 4096 % 2 ^ 32 / 4096 = i := by omega
    obtain ⟨q, hq, hr⟩ := markUsed_rewrites p (i * 4096 % 2 ^ 32)
    obtain ⟨q', hq', hr'⟩ := ih q (i + 1) (by omega)
    refine ⟨q', by simp only [markFrames, hq, Outcome.ok_bind, hq'], hr.trans ?_⟩
    refine ⟨hr'.maxBlocks, hr'.last, fun j => ?_, hr'.counted⟩
    rw [hr'.bit, hr.bit, hr.maxBlocks, hi, Bool.or_assoc, ← Bool.decide_or]
    congr 2
    apply propext
    constructor <;> omega

theorem freeOne_rewrites {p : PmmState} {i : ℕ} (hi : i < p.maxBlocks) :
    ∃ p', freeOne p i = .ok p' ∧ Rewrites p p' fun j => p.bit j && !decide (j = i) := by
  simp only [freeOne, bitmapCheck_ok hi, Outcome.ok_bind, bitmapClear_ok hi]
  cases hb : p.bit i with
  | true =>
    refine ⟨p.release i, rfl, rfl, rfl, fun j => ?_, counted_release hi hb⟩
    rw [bit_release, Bool.and_comm]
  | false =>
    refine ⟨p, rfl, rewrites_refl p fun j => ?_⟩
    by_cases hj : j = i
    · simp [hj, hb]
    · simp [hj]

theorem freeFrames_rewrites (p : PmmState) (i n : ℕ) (h : i + n ≤ p.maxBlocks) :
    ∃ p', freeFrames p i n = .ok p' ∧
      Rewrites p p' fun j => p.bit j && !decide (i ≤ j ∧ j < i + n) := by
  induction n generalizing p i with
  | zero =>
    refine ⟨p, rfl, rewrites_refl p fun j => ?_⟩
    rw [decide_eq_false (by omega)]
    simp
  | succ n ih =>
    obtain ⟨q, hq, hr⟩ := freeOne_rewrites (p := p) (i := i) (by omega)
    obtain ⟨q', hq', hr'⟩ := ih q (i + 1) (by rw [hr.maxBlocks]; omega)
    refine ⟨q', by simp only [freeFrames, hq, Outcome.ok_bind, hq'], hr.trans ?_⟩
    refine ⟨hr'.maxBlocks, hr'.last, fun j => ?_, hr'.counted⟩
    rw [hr'.bit, hr.bit, Bool.and_assoc, ← Bool.not_or, ← Bool.decide_or]
    congr 3
    apply propext
    constructor <;> omega

end KallarOS.Pmm
