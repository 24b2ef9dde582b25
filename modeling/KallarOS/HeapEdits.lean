import KallarOS.HeapBlocks

namespace KallarOS.Heap
open ByteMemory Chains Tilings Function

/-- `h'` is `h` with the header fields `size` and `next` instead of its own; no
other global has changed. -/
structure Edited (h h' : HeapState) (size next : ℕ → ℕ) : Prop where
  size : ∀ x, 16 ∣ x → h'.sizeAndFlags x = size x
  next : ∀ x, 16 ∣ x → h'.nextFreeSlot x = next x
  head : h'.freeListHead = h.freeListHead
  watermark : h'.heapWatermark = h.heapWatermark
  paging : h'.paging = h.paging

namespace Edited

variable {h h' : HeapState} {size next : ℕ → ℕ} {a v : ℕ}

theorem refl (h : HeapState) : Edited h h h.sizeAndFlags h.nextFreeSlot :=
  ⟨fun _ _ => rfl, fun _ _ => rfl, rfl, rfl, rfl⟩

theorem setSize (he : Edited h h' size next) (ha : 16 ∣ a) (hv : v < 2 ^ 32) :
    Edited h (h'.setSizeAndFlags a v) (update size a v) next where
  size x hx := by rw [sizeAndFlags_setSizeAndFlags ha hx hv, he.size x hx, update_apply]
  next x hx := by rw [nextFreeSlot_setSizeAndFlags ha hx, he.next x hx]
  head := he.head
  watermark := he.watermark
  paging := he.paging

theorem setNext (he : Edited h h' size next) (ha : 16 ∣ a) (hv : v < 2 ^ 32) :
    Edited h (h'.setNextFreeSlot a v) size (update next a v) where
  size x hx := by rw [sizeAndFlags_setNextFreeSlot ha hx, he.size x hx]
  next x hx := by rw [nextFreeSlot_setNextFreeSlot ha hx hv, he.next x hx, update_apply]
  head := he.head
  watermark := he.watermark
  paging := he.paging

end Edited

section Arithmetic

variable {x y n : ℕ}

theorem add32_of_lt (h : x + y < 2 ^ 32) : add32 x y = x + y := Nat.mod_eq_of_lt h

theorem sub32_of_le (h : y ≤ x) (hx : x < 2 ^ 32) : sub32 x y = x - y := by
  unfold sub32
  omega

theorem clearFlag_of_even (h : 2 ∣ x) : clearFlag x = x := by
  unfold clearFlag
  omega

theorem clearFlag_succ (h : 2 ∣ x) : clearFlag (x + 1) = x := by
  unfold clearFlag
  omega

theorem setFlag_of_even (h : 2 ∣ x) : setFlag x = x + 1 := by
  unfold setFlag
  omega

theorem realSize_eq (h : n + 23 < 2 ^ 32) : realSize n = (n + 8 + 15) / 16 * 16 := by
  unfold realSize headerSize
  omega

theorem dvd_realSize (n : ℕ) : 16 ∣ realSize n := Dvd.intro_left _ rfl

theorem realSize_pos (h : n + 23 < 2 ^ 32) : 0 < realSize n := by
  rw [realSize_eq h]
  omega

theorem pagesNeeded_eq (h : x + 4095 < 2 ^ 32) : pagesNeeded x = (x + 4095) / 4096 := by
  rw [pagesNeeded, add32_of_lt h]

end Arithmetic

section Operations

variable {h : HeapState} {a b s r : ℕ}

/-- Taking the front of a larger free block writes two headers and one link, then
leads the list to the rest of the block. -/
theorem takeBlock_split (prev : ℕ) (ha : 16 ∣ a) (hr : 16 ∣ r) (hs : 16 ∣ s)
    (hsize : h.sizeAndFlags a = s + 1) (hfit : r + 16 ≤ s) (hlt : a + s < 2 ^ 32) :
    ∃ h', takeBlock h a prev r = h'.relink prev (a + r) ∧
      Edited h h' (update (update h.sizeAndFlags (a + r) (s - r + 1)) a r)
        (update h.nextFreeSlot (a + r) (h.nextFreeSlot a)) := by
  have hnew : 16 ∣ a + r := ha.add hr
  have hclear : clearFlag (h.sizeAndFlags a) = s := by rw [hsize, clearFlag_succ (by omega)]
  have hsub : sub32 s r = s - r := sub32_of_le (by omega) (by omega)
  have hadd : add32 a r = a + r := add32_of_lt (by omega)
  have e1 := (Edited.refl h).setSize hnew (v := s - r) (by omega)
  have v1 : setFlag ((h.setSizeAndFlags (a + r) (s - r)).sizeAndFlags (a + r)) = s - r + 1 := by
    rw [e1.size _ hnew, update_self, setFlag_of_even (by omega)]
  have e2 := e1.setSize hnew (v := s - r + 1) (by omega)
  have e3 := e2.setSize ha (v := r) (by omega)
  have v3 := e3.size a ha
  rw [update_self] at v3
  have e4 := e3.setSize ha (v := r) (by omega)
  have v4 := e4.next a ha
  have e5 := e4.setNext hnew (v := h.nextFreeSlot a) (read32_lt _ _)
  refine ⟨_, ?_, by simpa only [update_idem] using e5⟩
  rw [takeBlock, hclear, hsub, if_pos (by unfold headerSize; omega), hadd]
  simp only [v1, v3, clearFlag_of_even (show 2 ∣ r by omega), v4]

theorem takeBlock_whole (prev : ℕ) (ha : 16 ∣ a) (hs : 16 ∣ s) (hsize : h.sizeAndFlags a = s + 1)
    (hlt : s < 2 ^ 32) :
    ∃ h', takeBlock h a prev s = h'.relink prev (h.nextFreeSlot a) ∧
      Edited h h' (update h.sizeAndFlags a s) h.nextFreeSlot := by
  have hclear : clearFlag (h.sizeAndFlags a) = s := by rw [hsize, clearFlag_succ (by omega)]
  have hsub : sub32 s s = 0 := by rw [sub32_of_le le_rfl hlt, Nat.sub_self]
  have e := (Edited.refl h).setSize ha hlt
  refine ⟨_, ?_, e⟩
  rw [takeBlock, hclear, hsub, if_neg (by unfold headerSize; omega)]
  simp only [e.next a ha]

theorem absorb_edited (ha : 16 ∣ a) (hb : 16 ∣ b) :
    Edited h (absorb h a b)
      (update h.sizeAndFlags a (add32 (h.sizeAndFlags a) (clearFlag (h.sizeAndFlags b))))
      (update h.nextFreeSlot a (h.nextFreeSlot b)) := by
  have e := (Edited.refl h).setSize ha
    (v := add32 (h.sizeAndFlags a) (clearFlag (h.sizeAndFlags b))) (Nat.mod_lt _ (by decide))
  rw [absorb]
  simp only [e.next b hb]
  exact e.setNext ha (read32_lt _ _)

end Operations

end KallarOS.Heap
