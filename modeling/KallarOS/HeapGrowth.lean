import KallarOS.HeapSteps
import KallarOS.PagingGrowth

namespace KallarOS.Heap
open ByteMemory Chains Tilings Paging Function

section Growth

variable {h : HeapState} {start a r n : ℕ} {bs : List Block}

/-- `n` pages mapped at the watermark. -/
def grown (h : HeapState) (paging : PagingState) (n : ℕ) : HeapState :=
  { h with paging := paging, heapWatermark := h.heapWatermark + 4096 * n }

theorem growPages_one {paging : PagingState}
    (hp : allocPage h.paging h.heapWatermark (ptePresent ||| pteRw) = .ok paging) :
    growPages h 1 = .ok { h with paging := paging, heapWatermark := add32 h.heapWatermark 4096 } := by
  simp only [growPages, hp]
  rfl

/-- Growth panics or reaches its end; the watermark does not wrap, since the last
page of the address space is never granted. -/
theorem growPages_outcome (n : ℕ) (hg : Growable h.paging) (hlt : h.heapWatermark < 2 ^ 32) :
    (∃ m, growPages h n = .error (.panic m)) ∨
      ∃ paging, growPages h n = .ok (grown h paging n) ∧ Growable paging ∧
        (0 < n → h.heapWatermark + 4096 * n < 2 ^ 32) := by
  induction n generalizing h with
  | zero => exact .inr ⟨h.paging, rfl, hg, fun h0 => absurd h0 (lt_irrefl 0)⟩
  | succ n ih =>
    rcases hg.allocPage hlt (show ptePresent ||| pteRw < 4096 by decide) with
      ⟨m, hm⟩ | ⟨s', hs', hg', hva⟩
    · exact .inl ⟨m, by simp only [growPages, hm, Outcome.error_bind]⟩
    -- `alloc_page` never maps the last page, so the watermark does not wrap
    have hadd : add32 h.heapWatermark 4096 = h.heapWatermark + 4096 := add32_of_lt (by omega)
    have hstep : growPages h (n + 1) =
        growPages { h with paging := s', heapWatermark := h.heapWatermark + 4096 } n := by
      simp only [growPages, hs', Outcome.ok_bind, hadd]
    rw [hstep]
    rcases ih (h := { h with paging := s', heapWatermark := h.heapWatermark + 4096 }) hg'
      (by simp only; omega) with ⟨m, hm⟩ | ⟨paging, hp, hg'', hend⟩
    · exact .inl ⟨m, hm⟩
    · refine .inr ⟨paging, ?_, hg'', fun _ => ?_⟩
      · have hsum : h.heapWatermark + 4096 + 4096 * n = h.heapWatermark + 4096 * (n + 1) := by omega
        simp only [hp, grown, hsum]
      · simp only at hend
        by_cases hn : 0 < n
        · have := hend hn
          omega
        · omega

theorem carveBlock_split (prev : ℕ) (ha : 16 ∣ a) (hr : 16 ∣ r) (hprev : prev = 0 ↔ h.freeListHead = 0)
    (hroom : r + 16 ≤ pagesNeeded r * 4096) (hlt : a + pagesNeeded r * 4096 < 2 ^ 32) :
    ∃ h', carveBlock h a prev r = h'.relink prev (a + r) ∧
      Edited h h'
        (update (update h.sizeAndFlags (a + r) (pagesNeeded r * 4096 - r + 1)) a r)
        (update h.nextFreeSlot (a + r) 0) := by
  have hlast : 16 ∣ a + r := ha.add hr
  have hmod : pagesNeeded r * 4096 % 2 ^ 32 = pagesNeeded r * 4096 := Nat.mod_eq_of_lt (by omega)
  have hsub : sub32 (pagesNeeded r * 4096) r = pagesNeeded r * 4096 - r :=
    sub32_of_le (by omega) (by omega)
  have hadd : add32 a r = a + r := add32_of_lt (by omega)
  have e1 := (Edited.refl h).setSize hlast (v := pagesNeeded r * 4096 - r) (by omega)
  have v1 := e1.size _ hlast
  rw [update_self] at v1
  have e2 := e1.setSize hlast (v := pagesNeeded r * 4096 - r + 1) (by omega)
  have e3 := e2.setNext hlast (v := 0) (by omega)
  have e4 := e3.setSize ha (v := r) (by omega)
  have v4 := e4.size a ha
  rw [update_self] at v4
  have e5 := e4.setSize ha (v := r) (by omega)
  refine ⟨_, ?_, by simpa only [update_idem] using e5⟩
  rw [carveBlock, hmod, hsub, if_pos (by unfold headerSize; omega), hadd]
  simp only [v1, setFlag_of_even (show 2 ∣ pagesNeeded r * 4096 - r by omega), v4,
    clearFlag_of_even (show 2 ∣ r by omega), HeapState.relink, hprev, e5.head]

theorem carveBlock_whole (prev : ℕ) (ha : 16 ∣ a) (hr : 16 ∣ r) (hroom : pagesNeeded r * 4096 = r)
    (hlt : r < 2 ^ 32) :
    Edited h (carveBlock h a prev r) (update h.sizeAndFlags a r) h.nextFreeSlot := by
  have hsub : sub32 r r = 0 := by rw [sub32_of_le le_rfl hlt, Nat.sub_self]
  rw [carveBlock, hroom, Nat.mod_eq_of_lt hlt, hsub, if_neg (by unfold headerSize; omega),
    clearFlag_of_even (show 2 ∣ r by omega)]
  exact (Edited.refl h).setSize ha hlt

/-- The blocks growth adds for a request: the new live block, and a free one when
the last page is not used up. -/
def newBlocks (a n : ℕ) : List Block :=
  if realSize n = pagesNeeded (realSize n) * 4096 then [⟨a, realSize n, some n⟩]
  else [⟨a, realSize n, some n⟩,
    ⟨a + realSize n, pagesNeeded (realSize n) * 4096 - realSize n, none⟩]

theorem Shape.last_eq_zero (hs : Shape h start bs) :
    (freeAddrs bs).getLastD 0 = 0 ↔ h.freeListHead = 0 := by
  have hl := hs.list
  generalize freeAddrs bs = xs at hl
  rcases xs.eq_nil_or_concat' with rfl | ⟨ys, y, rfl⟩
  · simpa using hl.path
  · have hy : y ≠ 0 := fun h0 => hl.nonnull (by simp [h0])
    have hhead : h.freeListHead ≠ 0 := fun h0 => hl.nonnull (by
      rw [← h0, path_head hl.path]
      cases ys <;> simp)
    -- a list with a last block has a first one, and no block lies at 0
    simp [hy, hhead]

theorem Shape.addr_lt_watermark (hs : Shape h start bs) {x : Block} (hx : x ∈ bs) :
    x.addr < h.heapWatermark := by
  have := hs.tiles.mem_bounds hx
  omega

theorem Shape.freeAddr_bounds (hs : Shape h start bs) {x : ℕ} (hx : x ∈ freeAddrs bs) :
    16 ∣ x ∧ x < h.heapWatermark := by
  obtain ⟨y, hy, -, rfl⟩ := mem_freeAddrs.mp hx
  exact ⟨hs.aligned hy, hs.addr_lt_watermark hy⟩

/-- The request uses its pages up. -/
theorem Shape.grow_whole (hs : Shape h start bs) (paging : PagingState) (hn : 0 < n)
    (hlt : n + 23 + 4095 < 2 ^ 32)
    (hend : h.heapWatermark + 4096 * pagesNeeded (realSize n) < 2 ^ 32)
    (hroom : realSize n = pagesNeeded (realSize n) * 4096) :
    Shape (carveBlock (grown h paging (pagesNeeded (realSize n))) h.heapWatermark
      ((freeAddrs bs).getLastD 0) (realSize n)) start
      (bs ++ [⟨h.heapWatermark, realSize n, some n⟩]) := by
  have hal := hs.watermark_aligned
  have ha : 16 ∣ h.heapWatermark := by omega
  have hr := dvd_realSize n
  have hpos : 0 < realSize n := realSize_pos (by omega)
  have hs' : Shape h start (bs ++ []) := by simpa using hs
  have ed := carveBlock_whole (h := grown h paging (pagesNeeded (realSize n)))
    ((freeAddrs bs).getLastD 0) ha hr hroom.symm (by omega)
  refine hs'.edit ?_ ?_ ?_ (fun x hx => ?_) (fun x hx => ?_) ed.head (fun x hx => ?_)
    (fun c hc => hc) fun x hx => ?_
  · rw [ed.watermark]
    exact hend
  · rw [ed.watermark]
    exact hal.add (Dvd.intro _ rfl)
  · rw [ed.watermark, tiles_append]
    exact ⟨_, hs.tiles, rfl, hpos, hr, by simp only [tiles_nil, grown]; omega⟩
  · rw [ed.size _ (hs.aligned hx), update_of_ne (hs.addr_lt_watermark hx).ne]
    rfl
  · rw [List.mem_singleton.mp hx, ed.size _ ha, update_self]
    rfl
  · rw [ed.next _ (hs.freeAddr_bounds hx).1]
    rfl
  · rw [List.mem_singleton.mp hx]
    exact fits_of_request hn hlt

/-- The rest of the last page becomes a free block. -/
theorem Shape.grow_split (hs : Shape h start bs) (paging : PagingState) (hn : 0 < n)
    (hlt : n + 23 + 4095 < 2 ^ 32)
    (hend : h.heapWatermark + 4096 * pagesNeeded (realSize n) < 2 ^ 32)
    (hroom : realSize n ≠ pagesNeeded (realSize n) * 4096) :
    Shape (carveBlock (grown h paging (pagesNeeded (realSize n))) h.heapWatermark
      ((freeAddrs bs).getLastD 0) (realSize n)) start
      (bs ++ [⟨h.heapWatermark, realSize n, some n⟩, ⟨h.heapWatermark + realSize n,
        pagesNeeded (realSize n) * 4096 - realSize n, none⟩]) := by
  have hal := hs.watermark_aligned
  have ha : 16 ∣ h.heapWatermark := by omega
  have hr := dvd_realSize n
  have hpos : 0 < realSize n := realSize_pos (by omega)
  have hpages := pagesNeeded_eq (x := realSize n) (by rw [realSize_eq (by omega)]; omega)
  have hs' : Shape h start (bs ++ []) := by simpa using hs
  obtain ⟨h', he, ed⟩ := carveBlock_split (h := grown h paging (pagesNeeded (realSize n)))
    ((freeAddrs bs).getLastD 0) ha hr hs.last_eq_zero (by omega) (by omega)
  rw [he]
  refine hs'.relink ?_ ?_ ?_ (fun x hx => ?_) (fun x hx => ?_) ed.head (fun x hx => ?_) ?_
    fun x hx => ?_
  · rw [ed.watermark]
    exact hend
  · rw [ed.watermark]
    exact hal.add (Dvd.intro _ rfl)
  · rw [ed.watermark, tiles_append]
    exact ⟨_, hs.tiles, rfl, hpos, hr, rfl, by simp only; omega, by simp only; omega,
      by simp only [tiles_nil, grown]; omega⟩
  · have := hs.addr_lt_watermark hx
    rw [ed.size _ (hs.aligned hx), update_of_ne (by omega), update_of_ne (by omega)]
    rfl
  · rcases List.mem_pair.mp hx with rfl | rfl
    · rw [ed.size _ ha, update_self]
      rfl
    · rw [ed.size _ (ha.add hr), update_of_ne (by omega), update_self]
      rfl
  · have := hs.freeAddr_bounds hx
    rw [ed.next _ this.1, update_of_ne (by omega)]
    rfl
  · rw [freeAddrs_live, freeAddrs_free, freeAddrs_nil, path_cons, path_nil,
      ed.next _ (ha.add hr), update_self]
    exact ⟨rfl, rfl⟩
  · rcases List.mem_pair.mp hx with rfl | rfl
    · exact fits_of_request hn hlt
    · exact fits_free

/-- Growing appends the new blocks at the end of the heap and of the free list. -/
theorem Shape.grow (hs : Shape h start bs) (paging : PagingState) (hn : 0 < n) (hlt : n + 23 + 4095 < 2 ^ 32)
    (hend : h.heapWatermark + 4096 * pagesNeeded (realSize n) < 2 ^ 32) :
    Shape (carveBlock (grown h paging (pagesNeeded (realSize n))) h.heapWatermark
      ((freeAddrs bs).getLastD 0) (realSize n)) start (bs ++ newBlocks h.heapWatermark n) := by
  unfold newBlocks
  split_ifs with hroom
  · exact hs.grow_whole paging hn hlt hend hroom
  · exact hs.grow_split paging hn hlt hend hroom

end Growth

end KallarOS.Heap
