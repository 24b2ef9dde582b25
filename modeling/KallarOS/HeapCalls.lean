import KallarOS.HeapGrowth

namespace KallarOS.Heap
open ByteMemory Chains Tilings Paging Function

/-- No two neighbours are both free. -/
def Separated (bs : List Block) : Prop := bs.IsChain fun x y => ¬ (isFree x ∧ isFree y)

/-- The address handed out for the block, and its request. -/
def Live (bs : List Block) (p n : ℕ) : Prop := ∃ b ∈ bs, b.tag = some n ∧ b.addr + headerSize = p

section Lists

variable {us vs : List Block} {a a' s s' r n p m : ℕ}

@[simp] theorem live_nil : ¬ Live [] p n := by simp [Live]

@[simp] theorem live_append : Live (us ++ vs) p n ↔ Live us p n ∨ Live vs p n := by
  simp [Live, or_and_right, exists_or]

@[simp] theorem live_cons_free : Live (⟨a, s, none⟩ :: vs) p n ↔ Live vs p n := by
  simp [Live]

@[simp] theorem live_cons_live :
    Live (⟨a, s, some m⟩ :: vs) p n ↔ (p = a + headerSize ∧ n = m) ∨ Live vs p n := by
  rw [← List.singleton_append, live_append]
  simp [Live, eq_comm, and_comm]

theorem separated_split (h : Separated (us ++ ⟨a, s, none⟩ :: vs)) :
    Separated (us ++ ⟨a, r, some n⟩ :: ⟨a', s', none⟩ :: vs) := by
  unfold Separated at *
  rw [List.isChain_append, List.isChain_cons] at *
  obtain ⟨hu, ⟨hv, hvs⟩, -⟩ := h
  refine ⟨hu, ⟨by simp [isFree], List.isChain_cons.mpr ⟨fun y hy => ?_, hvs⟩⟩, by simp [isFree]⟩
  simpa [isFree] using hv y hy

theorem separated_whole (h : Separated (us ++ ⟨a, s, none⟩ :: vs)) :
    Separated (us ++ ⟨a, s, some n⟩ :: vs) := by
  unfold Separated at *
  rw [List.isChain_append, List.isChain_cons] at *
  obtain ⟨hu, ⟨-, hvs⟩, -⟩ := h
  exact ⟨hu, ⟨by simp [isFree], hvs⟩, by simp [isFree]⟩

theorem separated_newBlocks (h : Separated us) (a n : ℕ) : Separated (us ++ newBlocks a n) := by
  unfold Separated at *
  refine h.append ?_ ?_
  · unfold newBlocks
    split_ifs <;> simp [isFree]
  · unfold newBlocks
    split_ifs <;> simp [isFree]

theorem live_newBlocks : Live (newBlocks a n) p m ↔ p = a + headerSize ∧ m = n := by
  unfold newBlocks
  split_ifs <;> simp

end Lists

section Merging

variable {h : HeapState} {start a s : ℕ} {us vs : List Block}

theorem touches_iff {b : ℕ} (hs : Shape h start (us ++ ⟨a, s, none⟩ :: vs)) :
    Touches h a b ↔ a + s = b := by
  obtain ⟨-, -, hdvd, hend, -⟩ := hs.cut
  simp only at hdvd hend
  rw [Touches, hs.header_free, clearFlag_succ (by omega), add32_of_lt hend]

/-- The merge with the block behind. -/
theorem Shape.mergeNext (hs : Shape h start (us ++ ⟨a, s, none⟩ :: vs)) :
    Shape (mergeNext h a ((freeAddrs vs).headD 0)) start (us ++ join ⟨a, s, none⟩ vs) := by
  rcases vs with - | ⟨⟨b, s', tag⟩, vs⟩
  · simpa [Heap.mergeNext, join] using hs
  obtain ⟨-, hpos, -, -, -, -, rfl, hpos', -, hvs⟩ := hs.cut
  simp only at hpos hpos' hvs
  cases tag with
  | none =>
    have hcond : a + s ≠ 0 ∧ Touches h a (a + s) := ⟨by omega, (touches_iff hs).mpr rfl⟩
    rw [freeAddrs_free, List.headD_cons, Heap.mergeNext, if_pos hcond, join_free_free]
    exact hs.merge
  | some m =>
    have hcond : ¬ ((freeAddrs vs).headD 0 ≠ 0 ∧ Touches h a ((freeAddrs vs).headD 0)) := by
      rintro ⟨h0, ht⟩
      rw [touches_iff hs] at ht
      have hmem : (freeAddrs vs).headD 0 ∈ freeAddrs vs := by
        cases hf : freeAddrs vs with
        | nil => simp [hf] at h0
        | cons x xs => simp
      obtain ⟨z, hz, -, hza⟩ := mem_freeAddrs.mp hmem
      have := (hvs.mem_bounds hz).1
      omega
    rw [freeAddrs_live, Heap.mergeNext, if_neg hcond, join_free_tagged]
    exact hs

/-- The merge with the block in front. -/
theorem Shape.mergePrev (hs : Shape h start (us ++ ⟨a, s, none⟩ :: vs)) (hsep : Separated us) :
    Shape (mergePrev h ((freeAddrs us).getLastD 0) a) start
      (us.foldr join (⟨a, s, none⟩ :: vs)) := by
  rcases us.eq_nil_or_concat' with rfl | ⟨us, ⟨b, t, tag⟩, rfl⟩
  · simpa [Heap.mergePrev] using hs
  rw [foldr_join_concat hsep]
  have hs' : Shape h start (us ++ ⟨b, t, tag⟩ :: ⟨a, s, none⟩ :: vs) := by simpa using hs
  obtain ⟨-, hpos, -, -, hle, hus, rfl, -, -, -⟩ := hs'.cut
  have hstart := hs.start_pos
  simp only at hpos hle hus
  cases tag with
  | none =>
    have hlast : (freeAddrs (us ++ [⟨b, t, none⟩])).getLastD 0 = b := by simp
    have hcond : b ≠ 0 ∧ Touches h b (b + t) := ⟨by omega, (touches_iff hs').mpr rfl⟩
    rw [hlast, Heap.mergePrev, if_pos hcond, join_free_free]
    exact hs'.merge
  | some m =>
    have hfree : freeAddrs (us ++ [⟨b, t, some m⟩]) = freeAddrs us := by simp
    have hcond : ¬ ((freeAddrs us).getLastD 0 ≠ 0 ∧ Touches h ((freeAddrs us).getLastD 0) (b + t)) := by
      rintro ⟨h0, ht⟩
      rcases (freeAddrs us).eq_nil_or_concat' with hf | ⟨xs, x, hf⟩
      · simp [hf] at h0
      obtain ⟨ys, r, zs, rfl, -, -⟩ := freeAddrs_cut (show freeAddrs us = xs ++ x :: [] from hf)
      have hlast : (freeAddrs (ys ++ ⟨x, r, none⟩ :: zs)).getLastD 0 = x := by simp [hf]
      have hs'' : Shape h start (ys ++ ⟨x, r, none⟩ :: (zs ++ ⟨b, t, some m⟩ :: ⟨b + t, s, none⟩ :: vs)) := by
        simpa using hs'
      rw [hlast, touches_iff hs''] at ht
      have := (hs''.vs_ge (x := ⟨b, t, some m⟩) (by simp)).1
      simp only at this
      omega
    rw [hfree, Heap.mergePrev, if_neg hcond, join_tagged]
    exact hs'

end Merging

/-- The representation invariant of the heap. -/
structure Rep (h : HeapState) (start : ℕ) (bs : List Block) : Prop extends Shape h start bs where
  separated : Separated bs
  growable : Growable h.paging

section Calls

variable {h : HeapState} {start n p : ℕ} {bs us vs : List Block}

@[simp] theorem paging_takeBlock (a prev r : ℕ) : (takeBlock h a prev r).paging = h.paging := by
  unfold takeBlock
  simp only
  split_ifs <;> simp

@[simp] theorem paging_carveBlock (a prev r : ℕ) : (carveBlock h a prev r).paging = h.paging := by
  unfold carveBlock
  simp only
  split_ifs <;> rfl

@[simp] theorem heapWatermark_mergeNext (a b : ℕ) :
    (mergeNext h a b).heapWatermark = h.heapWatermark := by
  unfold mergeNext
  split_ifs <;> rfl

@[simp] theorem heapWatermark_mergePrev (a b : ℕ) :
    (mergePrev h a b).heapWatermark = h.heapWatermark := by
  unfold mergePrev
  split_ifs <;> rfl

@[simp] theorem paging_mergeNext (a b : ℕ) : (mergeNext h a b).paging = h.paging := by
  unfold mergeNext
  split_ifs <;> rfl

@[simp] theorem paging_mergePrev (a b : ℕ) : (mergePrev h a b).paging = h.paging := by
  unfold mergePrev
  split_ifs <;> rfl

/-- No live block has the address of another block's payload. -/
theorem Shape.not_live {b : Block} (hs : Shape h start bs) (hb : b ∈ bs) (hfree : b.tag = none)
    (m : ℕ) : ¬ Live bs (b.addr + headerSize) m := by
  rintro ⟨x, hx, htag, haddr⟩
  obtain rfl := hs.tiles.eq_of_addr_eq hx hb (by omega)
  rw [hfree] at htag
  cases htag

theorem Shape.not_live_watermark (hs : Shape h start bs) (m : ℕ) :
    ¬ Live bs (h.heapWatermark + headerSize) m := by
  rintro ⟨x, hx, -, haddr⟩
  have := hs.tiles.mem_bounds hx
  omega

/-- The search of `kmalloc`, for a request of any size: the first free block that is
large enough, or growth when none is. -/
theorem Shape.kmalloc_search (hs : Shape h start bs) (hn : 0 < n) :
    (∃ us a s vs, bs = us ++ ⟨a, s, none⟩ :: vs ∧ realSize n ≤ s ∧
        (∀ b ∈ us, b.tag = none → b.size < realSize n) ∧
        Heap.kmalloc h n = .ok (a + headerSize,
          takeBlock h a ((freeAddrs us).getLastD 0) (realSize n))) ∨
      (∀ b ∈ bs, b.tag = none → b.size < realSize n) ∧
        Heap.kmalloc h n = growHeap h ((freeAddrs bs).getLastD 0) (realSize n) := by
  let fits : ℕ → Bool := fun block => decide (realSize n ≤ clearFlag (h.sizeAndFlags block))
  have hscan := scan_linked fits hs.list hs.length_lt 0
  have hcut := List.takeWhile_append_dropWhile (p := (!fits ·)) (l := freeAddrs bs)
  have hrest := List.head?_dropWhile_not (!fits ·) (freeAddrs bs)
  have hsmall : ∀ b ∈ bs, b.tag = none → b.addr ∈ (freeAddrs bs).takeWhile (!fits ·) →
      b.size < realSize n := by
    intro b hb htag hmem
    have hdvd := (hs.tiles.mem_bounds hb).2.2.2
    have hword : h.sizeAndFlags b.addr = b.size + 1 := by
      rw [hs.header b hb, headerWord, if_pos (by simp [isFree, htag])]
    simpa [fits, hword, clearFlag_succ (show 2 ∣ b.size by omega)] using List.mem_takeWhile_imp hmem
  rw [Heap.kmalloc, if_neg hn.ne']
  simp only [Pmm.walkFuel]
  cases hdrop : (freeAddrs bs).dropWhile (!fits ·) with
  | nil =>
    rw [hdrop, List.append_nil] at hcut
    rw [hdrop, hcut, List.headD_nil] at hscan
    rw [hscan]
    refine .inr ⟨fun b hb htag => ?_, by simp only [if_true]⟩
    exact hsmall b hb htag (hcut.symm ▸ mem_freeAddrs.mpr ⟨b, hb, htag, rfl⟩)
  | cons a post =>
    rw [hdrop] at hcut hrest hscan
    obtain ⟨us, s, vs, rfl, hus, hvs⟩ := freeAddrs_cut hcut.symm
    obtain ⟨ha, hpos, hdvd, hend, -⟩ := hs.cut
    have hstart := hs.start_pos
    have hge := (hs.tiles.mem_bounds (x := ⟨a, s, none⟩) (by simp)).1
    simp only at ha hpos hdvd hend hge
    have hfit : realSize n ≤ s := by
      simpa [fits, hs.header_free, clearFlag_succ (show 2 ∣ s by omega)] using hrest
    have hadd : add32 a headerSize = a + headerSize := add32_of_lt (by unfold headerSize; omega)
    rw [hscan]
    simp only [List.headD_cons, if_neg (show a ≠ 0 by omega), hadd]
    rw [← hus]
    refine .inl ⟨us, a, s, vs, rfl, hfit, fun b hb htag => ?_, rfl⟩
    exact hsmall b (by simp [hb]) htag (hus ▸ mem_freeAddrs.mpr ⟨b, hb, htag, rfl⟩)

/-- Growth ends in the panic of an `alloc_page`, or puts the block at the watermark. -/
theorem Rep.growHeap (hr : Rep h start bs) (hlt : n + 4103 < 2 ^ 32) (previous : ℕ) :
    (∃ m, growPages h (pagesNeeded (realSize n)) = .error (.panic m) ∧
        Heap.growHeap h previous (realSize n) = .error (.panic m)) ∨
      ∃ paging, growPages h (pagesNeeded (realSize n)) =
          .ok (grown h paging (pagesNeeded (realSize n))) ∧ Growable paging ∧
        h.heapWatermark + 4096 * pagesNeeded (realSize n) < 2 ^ 32 ∧
        Heap.growHeap h previous (realSize n) = .ok (h.heapWatermark + headerSize,
          carveBlock (grown h paging (pagesNeeded (realSize n))) h.heapWatermark previous
            (realSize n)) := by
  rw [Heap.growHeap]
  rcases growPages_outcome (pagesNeeded (realSize n)) hr.growable hr.watermark_lt with
    ⟨m, hm⟩ | ⟨paging, hp, hg, hend⟩
  · exact .inl ⟨m, hm, by rw [hm]; rfl⟩
  have hpages := pagesNeeded_eq (x := realSize n) (by rw [realSize_eq (by omega)]; omega)
  have hpos := realSize_pos (n := n) (by omega)
  have hend := hend (by omega)
  have hadd : add32 h.heapWatermark headerSize = h.heapWatermark + headerSize :=
    add32_of_lt (by unfold headerSize; omega)
  exact .inr ⟨paging, hp, hg, hend, by rw [hp, hadd]; rfl⟩

/-- What `kmalloc` can do: panic in `alloc_page`, take the first free block that
fits, or put a new block at the watermark when none does. -/
theorem Rep.kmalloc_cases (hr : Rep h start bs) (hn : 0 < n) (hlt : n + 4103 < 2 ^ 32) :
    (∃ m, Heap.kmalloc h n = .error (.panic m)) ∨
      (∃ us a s vs, bs = us ++ ⟨a, s, none⟩ :: vs ∧ realSize n ≤ s ∧
        (∀ b ∈ us, b.tag = none → b.size < realSize n) ∧
        Heap.kmalloc h n = .ok (a + headerSize,
          takeBlock h a ((freeAddrs us).getLastD 0) (realSize n))) ∨
      ∃ paging, (∀ b ∈ bs, b.tag = none → b.size < realSize n) ∧
        growPages h (pagesNeeded (realSize n)) =
          .ok (grown h paging (pagesNeeded (realSize n))) ∧ Growable paging ∧
        h.heapWatermark + 4096 * pagesNeeded (realSize n) < 2 ^ 32 ∧
        Heap.kmalloc h n = .ok (h.heapWatermark + headerSize,
          carveBlock (grown h paging (pagesNeeded (realSize n))) h.heapWatermark
            ((freeAddrs bs).getLastD 0) (realSize n)) := by
  have hs := hr.toShape
  rcases hs.kmalloc_search hn with hfit | ⟨hsmall, hok⟩
  · exact .inr (.inl hfit)
  rw [hok]
  rcases hr.growHeap hlt ((freeAddrs bs).getLastD 0) with ⟨m, -, hm⟩ | ⟨paging, hp, hg, hend, hok'⟩
  · exact .inl ⟨m, hm⟩
  · exact .inr (.inr ⟨paging, hsmall, hp, hg, hend, hok'⟩)

/-- `kmalloc` adds one live block at a new address, unless `alloc_page` panics. -/
theorem Rep.kmalloc (hr : Rep h start bs) (hn : 0 < n) (hlt : n + 23 + 4095 < 2 ^ 32) :
    (∃ m, kmalloc h n = .error (.panic m)) ∨
      ∃ p h' bs', kmalloc h n = .ok (p, h') ∧ Rep h' start bs' ∧ (∀ m, ¬ Live bs p m) ∧
        ∀ q m, Live bs' q m ↔ (q = p ∧ m = n) ∨ Live bs q m := by
  have hs := hr.toShape
  rcases hr.kmalloc_cases hn (by omega) with
    hpanic | ⟨us, a, s, vs, rfl, hfit, -, hok⟩ | ⟨paging, -, -, hg, hend, hok⟩
  · exact .inl hpanic
  · obtain ⟨-, -, hdvd, -⟩ := hs.cut
    have hdr := dvd_realSize n
    have hnew := hs.not_live (b := ⟨a, s, none⟩) (by simp) rfl
    simp only at hdvd
    refine .inr ⟨a + headerSize, takeBlock h a ((freeAddrs us).getLastD 0) (realSize n), ?_⟩
    by_cases hroom : realSize n + 16 ≤ s
    · refine ⟨_, hok, ⟨hs.split hn hlt hroom, separated_split hr.separated, ?_⟩,
        hnew, fun q m => ?_⟩
      · simpa using hr.growable
      · simp only [live_append, live_cons_free, live_cons_live]
        tauto
    · obtain rfl : s = realSize n := by omega
      refine ⟨_, hok, ⟨hs.whole hn hlt, separated_whole hr.separated, ?_⟩,
        hnew, fun q m => ?_⟩
      · simpa using hr.growable
      · simp only [live_append, live_cons_free, live_cons_live]
        tauto
  · refine .inr ⟨_, _, _, hok,
      ⟨hs.grow paging hn hlt hend, separated_newBlocks hr.separated _ _, ?_⟩,
      hs.not_live_watermark, fun q m => ?_⟩
    · simpa [grown] using hg
    · rw [live_append, live_newBlocks, or_comm]

/-- The first request of all goes straight to `alloc_page`. -/
theorem Rep.kmalloc_first {h' : HeapState} (hr : Rep h start []) (hn : 0 < n)
    (hlt : n + 23 + 4095 < 2 ^ 32) (hg : growPages h (pagesNeeded (realSize n)) = .ok h') :
    ∃ h₁, Heap.kmalloc h n = .ok (h.heapWatermark + headerSize, h₁) ∧
      Rep h₁ start (newBlocks h.heapWatermark n) := by
  rcases hr.toShape.kmalloc_search hn with ⟨us, a, s, vs, hnil, -⟩ | ⟨-, hok⟩
  · exact absurd hnil.symm (by simp)
  rcases hr.growHeap (n := n) (by omega) ((freeAddrs []).getLastD 0) with
    ⟨m, hm, -⟩ | ⟨paging, -, hp, hend, hok'⟩
  · cases hg.symm.trans hm
  · refine ⟨_, hok.trans hok', hr.toShape.grow paging hn hlt hend, separated_newBlocks hr.separated _ _, ?_⟩
    simpa [grown] using hp

/-- `kfree` of a live block puts it between its free neighbours in the list and
merges it with those it touches. -/
theorem Shape.kfree_eq {a s : ℕ} (hs : Shape h start (us ++ ⟨a, s, some n⟩ :: vs)) :
    Heap.kfree h (a + headerSize) = .ok
      (Heap.mergePrev (Heap.mergeNext
        (((h.setSizeAndFlags a (s + 1)).setNextFreeSlot a ((freeAddrs vs).headD 0)).relink
          ((freeAddrs us).getLastD 0) a) a ((freeAddrs vs).headD 0))
        ((freeAddrs us).getLastD 0) a) := by
  obtain ⟨ha, hpos, hdvd, hend, -⟩ := hs.cut
  have hword : h.sizeAndFlags a = s := hs.header ⟨a, s, some n⟩ (by simp)
  simp only at ha hpos hdvd hend
  have hsub : sub32 (a + headerSize) headerSize = a := by unfold sub32 headerSize; omega
  -- the list as the walk sees it, with the flag of the block already set
  have hlist : Linked 0 (h.setSizeAndFlags a (s + 1)).nextFreeSlot
      (h.setSizeAndFlags a (s + 1)).freeListHead (freeAddrs us ++ freeAddrs vs) := by
    have hl := hs.list
    have hal := hs.slots.aligned
    rw [freeAddrs_append, freeAddrs_live] at hl hal
    exact ⟨(path_congr fun x hx => nextFreeSlot_setSizeAndFlags ha (hal x hx)).mpr hl.path,
      hl.nonnull⟩
  have hlen : (freeAddrs us ++ freeAddrs vs).length < 2 ^ 32 := by
    simpa using hs.length_lt
  have hlow : ∀ x ∈ freeAddrs us, (!decide (a ≤ x)) = true := fun x hx => by
    have := (hs.mem_freeAddrs_lt hx).1
    simpa using this
  have hhigh : ∀ x ∈ freeAddrs vs, ¬ (!decide (a ≤ x)) = true := fun x hx => by
    have := (hs.mem_freeAddrs_ge hx).1
    simp only at this
    simp
    omega
  have htake : (freeAddrs vs).takeWhile (fun x => !decide (a ≤ x)) = [] := by
    cases hf : freeAddrs vs with
    | nil => rfl
    | cons x xs => exact List.takeWhile_cons_of_neg (hhigh x (by simp [hf]))
  have hdrop : (freeAddrs vs).dropWhile (fun x => !decide (a ≤ x)) = freeAddrs vs := by
    cases hf : freeAddrs vs with
    | nil => rfl
    | cons x xs => exact List.dropWhile_cons_of_neg (hhigh x (by simp [hf]))
  have hscan := scan_linked (fun head => decide (a ≤ head)) hlist hlen 0
  rw [List.takeWhile_append_of_pos hlow, List.dropWhile_append_of_pos hlow, htake, hdrop,
    List.append_nil] at hscan
  simp only [Heap.kfree, hsub, hword, if_neg (show ¬ s % 2 = 1 by omega),
    setFlag_of_even (show 2 ∣ s by omega), Pmm.walkFuel, hscan]

/-- The blocks after `kfree`: the old ones with that block free, coalesced. -/
theorem Shape.kfree {a s : ℕ} (hs : Shape h start (us ++ ⟨a, s, some n⟩ :: vs))
    (hsep : Separated (us ++ ⟨a, s, some n⟩ :: vs)) :
    ∃ h', Heap.kfree h (a + headerSize) = .ok h' ∧ h'.heapWatermark = h.heapWatermark ∧
      h'.paging = h.paging ∧ Shape h' start (coalesce (us ++ ⟨a, s, none⟩ :: vs)) := by
  obtain ⟨hsepu, hsepv, -⟩ := List.isChain_append.mp hsep
  have hvs : coalesce vs = vs := coalesce_of_apart (List.isChain_cons.mp hsepv).2
  have hs1 := hs.insert.mergeNext
  refine ⟨_, hs.kfree_eq, by simp, by simp, ?_⟩
  rw [coalesce_append, coalesce_cons, hvs]
  obtain ⟨t, ws, hjoin⟩ := join_head (⟨a, s, none⟩ : Block) vs
  rw [hjoin] at hs1 ⊢
  exact hs1.mergePrev hsepu

theorem live_coalesce {m : ℕ} : Live (coalesce bs) p m ↔ Live bs p m := by
  unfold Live
  constructor
  · rintro ⟨b, hb, htag, haddr⟩
    exact ⟨b, (mem_coalesce (by rw [htag]; nofun)).mp hb, htag, haddr⟩
  · rintro ⟨b, hb, htag, haddr⟩
    exact ⟨b, (mem_coalesce (by rw [htag]; nofun)).mpr hb, htag, haddr⟩

/-- `kfree` of a live address returns, and takes that block out of the live ones. -/
theorem Rep.kfree (hr : Rep h start bs) (hp : Live bs p n) :
    ∃ h' bs', kfree h p = .ok h' ∧ Rep h' start bs' ∧
      ∀ q m, Live bs' q m ↔ q ≠ p ∧ Live bs q m := by
  have hs := hr.toShape
  obtain ⟨⟨a, s, tag⟩, hb, rfl, rfl⟩ := hp
  obtain ⟨us, vs, rfl⟩ := List.append_of_mem hb
  obtain ⟨h', hok, -, hpaging, hs'⟩ := hs.kfree hr.separated
  refine ⟨h', _, hok, ⟨hs', coalesce_isChain _, hpaging ▸ hr.growable⟩, fun q m => ?_⟩
  have hu : Live us q m → q ≠ a + headerSize := by
    rintro ⟨x, hx, -, rfl⟩
    have := (hs.us_lt hx).1
    simp only at this
    omega
  have hv : Live vs q m → q ≠ a + headerSize := by
    rintro ⟨x, hx, -, rfl⟩
    have := (hs.vs_ge hx).1
    have hpos := hs.cut.2.1
    simp only at this hpos
    omega
  simp only [live_coalesce, live_append, live_cons_free, live_cons_live]
  constructor
  · rintro (hl | hl)
    · exact ⟨hu hl, .inl hl⟩
    · exact ⟨hv hl, .inr (.inr hl)⟩
  · rintro ⟨hne, hl | ⟨he, -⟩ | hl⟩
    · exact .inl hl
    · exact absurd he hne
    · exact .inr hl

end Calls

end KallarOS.Heap
