import KallarOS.HeapModel
import KallarOS.Tilings

namespace KallarOS.Heap
open ByteMemory Chains Tilings

section Fields

variable {h : HeapState} {a b v : ℕ}

theorem sizeAndFlags_setSizeAndFlags (ha : 16 ∣ a) (hb : 16 ∣ b) (hv : v < 2 ^ 32) :
    (h.setSizeAndFlags a v).sizeAndFlags b = if b = a then v else h.sizeAndFlags b := by
  split_ifs with hba
  · rw [hba]
    exact read32_write32_self _ _ hv
  · exact read32_write32_disjoint _ _ (by omega)

theorem sizeAndFlags_setNextFreeSlot (ha : 16 ∣ a) (hb : 16 ∣ b) :
    (h.setNextFreeSlot a v).sizeAndFlags b = h.sizeAndFlags b :=
  read32_write32_disjoint _ _ (by omega)

theorem nextFreeSlot_setSizeAndFlags (ha : 16 ∣ a) (hb : 16 ∣ b) :
    (h.setSizeAndFlags a v).nextFreeSlot b = h.nextFreeSlot b :=
  read32_write32_disjoint _ _ (by omega)

theorem nextFreeSlot_setNextFreeSlot (ha : 16 ∣ a) (hb : 16 ∣ b) (hv : v < 2 ^ 32) :
    (h.setNextFreeSlot a v).nextFreeSlot b = if b = a then v else h.nextFreeSlot b := by
  split_ifs with hba
  · rw [hba]
    exact read32_write32_self _ _ hv
  · exact read32_write32_disjoint _ _ (by omega)

@[simp] theorem freeListHead_setSizeAndFlags :
    (h.setSizeAndFlags a v).freeListHead = h.freeListHead := rfl
@[simp] theorem freeListHead_setNextFreeSlot :
    (h.setNextFreeSlot a v).freeListHead = h.freeListHead := rfl
@[simp] theorem heapWatermark_setSizeAndFlags :
    (h.setSizeAndFlags a v).heapWatermark = h.heapWatermark := rfl
@[simp] theorem heapWatermark_setNextFreeSlot :
    (h.setNextFreeSlot a v).heapWatermark = h.heapWatermark := rfl
@[simp] theorem paging_setSizeAndFlags : (h.setSizeAndFlags a v).paging = h.paging := rfl
@[simp] theorem paging_setNextFreeSlot : (h.setNextFreeSlot a v).paging = h.paging := rfl

@[simp] theorem heapWatermark_relink : (h.relink a b).heapWatermark = h.heapWatermark := by
  unfold HeapState.relink
  split_ifs <;> rfl

@[simp] theorem paging_relink : (h.relink a b).paging = h.paging := by
  unfold HeapState.relink
  split_ifs <;> rfl

theorem sizeAndFlags_relink {x : ℕ} (ha : 16 ∣ a) (hx : 16 ∣ x) :
    (h.relink a b).sizeAndFlags x = h.sizeAndFlags x := by
  unfold HeapState.relink
  split_ifs
  · rfl
  · exact sizeAndFlags_setNextFreeSlot ha hx

theorem nextFreeSlot_relink {x : ℕ} (ha : 16 ∣ a) (hx : 16 ∣ x) (hxa : x ≠ a) (hb : b < 2 ^ 32) :
    (h.relink a b).nextFreeSlot x = h.nextFreeSlot x := by
  unfold HeapState.relink
  split_ifs
  · rfl
  · rw [nextFreeSlot_setNextFreeSlot ha hx hb, if_neg hxa]

end Fields

/-- Addresses that can head a block: the node set of a free list. -/
structure Slots (xs : List ℕ) : Prop where
  nodup : xs.Nodup
  aligned : ∀ x ∈ xs, 16 ∣ x
  nonnull : 0 ∉ xs
  lt : ∀ x ∈ xs, x < 2 ^ 32

section Lists

variable {h : HeapState} {b c : ℕ} {pre rest : List ℕ}

theorem Slots.last_aligned (hs : Slots pre) : 16 ∣ pre.getLastD 0 := by
  rcases pre.eq_nil_or_concat' with rfl | ⟨ys, y, rfl⟩
  · simp
  · simpa using hs.aligned y (by simp)

/-- The list with everything behind `pre` replaced by `rest`. -/
theorem linked_relink (hs : Slots (pre ++ rest)) (hp : Path h.nextFreeSlot h.freeListHead pre c)
    (hq : Path h.nextFreeSlot b rest 0) :
    Linked 0 (h.relink (pre.getLastD 0) b).nextFreeSlot (h.relink (pre.getLastD 0) b).freeListHead
      (pre ++ rest) := by
  have hb : b < 2 ^ 32 := by
    cases rest with
    | nil => rw [path_nil.mp hq]; decide
    | cons x xs => exact hs.lt b (by simp [hq.1])
  refine ⟨path_append.mpr ⟨b, ?_, ?_⟩, hs.nonnull⟩
  · rcases pre.eq_nil_or_concat' with rfl | ⟨ys, y, rfl⟩
    · exact rfl
    · have hal : ∀ x ∈ ys ++ [y], 16 ∣ x := fun x hx => hs.aligned x (List.mem_append_left _ hx)
      have hy0 : y ≠ 0 := fun hy => hs.nonnull (by simp [hy])
      have hyys : y ∉ ys := fun hy => by
        have := (List.nodup_append.mp (List.nodup_append.mp hs.nodup).1).2.2 y hy y (by simp)
        exact this rfl
      have hlast : (ys ++ [y]).getLastD 0 = y := by simp
      rw [hlast, HeapState.relink, if_neg hy0]
      refine path_relink hp (by simp) (fun x hx => ?_) fun x hx => ?_
      · have hxy : y = x := by simpa using hx
        subst hxy
        rw [nextFreeSlot_setNextFreeSlot (hal y (by simp)) (hal y (by simp)) hb, if_pos rfl]
      · rw [List.dropLast_concat] at hx
        rw [nextFreeSlot_setNextFreeSlot (hal y (by simp)) (hal x (by simp [hx])) hb,
          if_neg fun (he : x = y) => hyys (he ▸ hx)]
  · refine (path_congr fun x hx => ?_).mpr hq
    have hx16 := hs.aligned x (List.mem_append_right _ hx)
    rcases pre.eq_nil_or_concat' with rfl | ⟨ys, y, rfl⟩
    · rfl
    · have hxy : x ≠ y := fun he =>
        (List.nodup_append.mp hs.nodup).2.2 y (by simp) x hx he.symm
      refine nextFreeSlot_relink ?_ hx16 (by simpa using hxy) hb
      simpa using hs.aligned y (by simp)

end Lists

/-- A block of the heap: free, or live for a request of so many bytes. -/
abbrev Block := Tile (Option ℕ)

def isFree (b : Block) : Bool := b.tag.isNone

def freeAddrs (bs : List Block) : List ℕ := (bs.filter isFree).map Tile.addr

/-- The word the block's header holds. -/
def headerWord (b : Block) : ℕ := if isFree b then b.size + 1 else b.size

section Blocks

variable {us vs bs : List Block} {a s n start e : ℕ}

@[simp] theorem freeAddrs_nil : freeAddrs [] = [] := rfl

@[simp] theorem freeAddrs_append : freeAddrs (us ++ vs) = freeAddrs us ++ freeAddrs vs := by
  simp [freeAddrs]

@[simp] theorem freeAddrs_free : freeAddrs (⟨a, s, none⟩ :: vs) = a :: freeAddrs vs := rfl

@[simp] theorem freeAddrs_live : freeAddrs (⟨a, s, some n⟩ :: vs) = freeAddrs vs := rfl

theorem mem_freeAddrs {x : ℕ} : x ∈ freeAddrs bs ↔ ∃ b ∈ bs, b.tag = none ∧ b.addr = x := by
  simp [freeAddrs, isFree, and_assoc]

theorem freeAddrs_length_le (bs : List Block) : (freeAddrs bs).length ≤ bs.length := by
  simpa [freeAddrs] using List.length_filter_le isFree bs

/-- A node of the free list is the header of a block, and cuts the blocks where it
cuts the list. -/
theorem freeAddrs_cut {pre post : List ℕ} (h : freeAddrs bs = pre ++ a :: post) :
    ∃ us s vs, bs = us ++ ⟨a, s, none⟩ :: vs ∧ freeAddrs us = pre ∧ freeAddrs vs = post := by
  obtain ⟨fs, gs, hfilter, rfl, hgs⟩ := List.map_eq_append_iff.mp h
  obtain ⟨us, ws, rfl, rfl, hws⟩ := List.filter_eq_append_iff.mp hfilter
  obtain ⟨b, gs', rfl, hb, rfl⟩ := List.map_eq_cons_iff.mp hgs
  obtain ⟨us', vs, rfl, hlive, hfree, rfl⟩ := List.filter_eq_cons_iff.mp hws
  obtain ⟨addr, size, tag⟩ := b
  obtain rfl : tag = none := by simpa [isFree] using hfree
  obtain rfl : addr = a := hb
  refine ⟨us ++ us', size, vs, by simp, ?_, rfl⟩
  have : us'.filter isFree = [] := List.filter_eq_nil_iff.mpr hlive
  simp [freeAddrs, this]

theorem slots_of_tiles (ht : Tiles 16 start bs e) (hpos : 0 < start) (hal : 16 ∣ start)
    (he : e < 2 ^ 32) : Slots (freeAddrs bs) where
  nodup := (ht.addr_lt.imp ne_of_lt).sublist (List.filter_sublist.map _)
  aligned x hx := by
    obtain ⟨b, hb, -, rfl⟩ := mem_freeAddrs.mp hx
    exact ht.aligned hal hb
  nonnull hx := by
    obtain ⟨b, hb, -, h0⟩ := mem_freeAddrs.mp hx
    have := (ht.mem_bounds hb).1
    omega
  lt x hx := by
    obtain ⟨b, hb, -, rfl⟩ := mem_freeAddrs.mp hx
    have := (ht.mem_bounds hb).2
    omega

end Blocks

end KallarOS.Heap
