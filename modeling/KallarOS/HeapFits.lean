import KallarOS.HeapFreeing
import KallarOS.HeapRequests

namespace KallarOS.Heap
open ByteMemory Chains Tilings Pmm Paging Function

/-- The free blocks as pairs of address and size. -/
def freeSpans (bs : List Block) : List (ℕ × ℕ) := (bs.filter isFree).map fun b => (b.addr, b.size)

/-- What a request takes with its header, in multiples of 16. -/
def roundedSize (n : ℕ) : ℕ := (n + 8 + 15) / 16 * 16

/-- What is left of a block of `s` bytes at `a` when `r` are taken from its front. -/
def leftover (a s r : ℕ) : List (ℕ × ℕ) := if s = r then [] else [(a + r, s - r)]

section Spans

variable {us vs bs : List Block} {a s n : ℕ}

@[simp] theorem freeSpans_append : freeSpans (us ++ vs) = freeSpans us ++ freeSpans vs := by
  simp [freeSpans]

@[simp] theorem freeSpans_free : freeSpans (⟨a, s, none⟩ :: vs) = (a, s) :: freeSpans vs := rfl

@[simp] theorem freeSpans_live : freeSpans (⟨a, s, some n⟩ :: vs) = freeSpans vs := rfl

theorem mem_freeSpans {x : ℕ × ℕ} :
    x ∈ freeSpans bs ↔ ∃ b ∈ bs, b.tag = none ∧ (b.addr, b.size) = x := by
  simp [freeSpans, isFree, and_assoc]

theorem forall_freeSpans {r : ℕ} :
    (∀ x ∈ freeSpans bs, x.2 < r) ↔ ∀ b ∈ bs, b.tag = none → b.size < r := by
  constructor
  · intro hx b hb htag
    exact hx (b.addr, b.size) (mem_freeSpans.mpr ⟨b, hb, htag, rfl⟩)
  · intro hb x hx
    obtain ⟨b, hmem, htag, rfl⟩ := mem_freeSpans.mp hx
    exact hb b hmem htag

theorem freeSpans_newBlocks :
    freeSpans (newBlocks a n) = leftover a (pagesNeeded (realSize n) * 4096) (realSize n) := by
  unfold newBlocks leftover
  by_cases h : realSize n = pagesNeeded (realSize n) * 4096
  · rw [if_pos h, if_pos h.symm]
    rfl
  · rw [if_neg h, if_neg (Ne.symm h)]
    rfl

end Spans

section Fits

variable {h h' : HeapState} {start n p : ℕ} {bs : List Block}

theorem Shape.freeList_spans (hs : Shape h start bs) : freeList h = freeSpans bs := hs.freeList_eq

theorem Shape.freeList_sorted (hs : Shape h start bs) :
    (freeList h).Pairwise fun x y => x.1 < y.1 := by
  rw [hs.freeList_spans, freeSpans, List.pairwise_map]
  exact (List.pairwise_map.mp hs.tiles.addr_lt).sublist List.filter_sublist

/-- The blocks after a first fit: the block is live, and what it has too many is free. -/
theorem Rep.takeBlock {us vs : List Block} {a s : ℕ} (hr : Rep h start (us ++ ⟨a, s, none⟩ :: vs))
    (hn : 0 < n) (hlt : n + 23 + 4095 < 2 ^ 32) (hfit : realSize n ≤ s) :
    ∃ ws, Rep (Heap.takeBlock h a ((freeAddrs us).getLastD 0) (realSize n)) start
        (us ++ ⟨a, realSize n, some n⟩ :: (ws ++ vs)) ∧
      freeSpans ws = leftover a s (realSize n) ∧
      join ⟨a, realSize n, none⟩ (ws.foldr join (coalesce vs)) = join ⟨a, s, none⟩ (coalesce vs) := by
  have hs := hr.toShape
  have hdvd : 16 ∣ s := hs.cut.2.2.1
  have hdr := dvd_realSize n
  have hg : Growable (Heap.takeBlock h a ((freeAddrs us).getLastD 0) (realSize n)).paging := by
    simpa using hr.growable
  by_cases hroom : realSize n + 16 ≤ s
  · refine ⟨[⟨a + realSize n, s - realSize n, none⟩],
      ⟨hs.split hn hlt hroom, separated_split hr.separated, hg⟩, ?_, ?_⟩
    · rw [leftover, if_neg (by omega)]
      rfl
    · rw [List.foldr_cons, List.foldr_nil, join_join_free, Nat.add_sub_of_le hfit]
  -- sizes are multiples of 16, so a rest below 16 bytes is no rest
  · obtain rfl : s = realSize n := by omega
    refine ⟨[], ⟨hs.whole hn hlt, separated_whole hr.separated, hg⟩, ?_, rfl⟩
    rw [leftover, if_pos rfl]
    rfl

/-- A free block that is large enough is not asked of a request near 4 GiB. -/
theorem Rep.fit_small (hr : Rep h start bs) {b : Block} (hb : b ∈ bs) (hlt : n + 4103 < 2 ^ 32)
    (hfit : realSize n ≤ b.size) : n + 23 + 4095 < 2 ^ 32 := by
  have hstart := hr.start_pos
  have hal := hr.start_aligned
  have hbound := hr.tiles.mem_bounds hb
  have hwm := hr.watermark_lt
  rw [realSize_eq (by omega)] at hfit
  omega

theorem Rep.grow_small (hr : Rep h start bs) (hlt : n + 4103 < 2 ^ 32)
    (hend : h.heapWatermark + 4096 * pagesNeeded (realSize n) < 2 ^ 32) :
    n + 23 + 4095 < 2 ^ 32 := by
  have hstart := hr.start_pos
  have hal := hr.start_aligned
  have hle := hr.tiles.le
  have hround := realSize_eq (n := n) (by omega)
  rw [pagesNeeded_eq (by omega), hround] at hend
  omega

/-- The two ways a request can be met, by what happens to the free list, and how the
third one ends in `alloc_page`. -/
theorem first_fit_or_growth (h : HeapState) (start : ℕ) (bs : List Block) (hr : Rep h start bs)
    (n : ℕ) (hn : 0 < n) (hround : n + 8 + 15 < 2 ^ 32) (hpage : roundedSize n + 4095 < 2 ^ 32) :
    (freeList h).Pairwise (fun x y => x.1 < y.1) ∧
    ((∃ x ∈ freeList h, roundedSize n ≤ x.2) →
      ∃ pre a s post h', freeList h = pre ++ (a, s) :: post ∧
        (∀ x ∈ pre, x.2 < roundedSize n) ∧ roundedSize n ≤ s ∧ kmalloc h n = .ok (a + 8, h') ∧
        freeList h' = pre ++ leftover a s (roundedSize n) ++ post ∧
        h'.heapWatermark = h.heapWatermark) ∧
    ((∀ x ∈ freeList h, x.2 < roundedSize n) →
      (∃ m, growPages h ((roundedSize n + 4095) / 4096) = .error (.panic m) ∧
        kmalloc h n = .error (.panic m)) ∨
      ∃ h', kmalloc h n = .ok (h.heapWatermark + 8, h') ∧
        h'.heapWatermark = h.heapWatermark + (roundedSize n + 4095) / 4096 * 4096 ∧
        freeList h' = freeList h ++
          leftover h.heapWatermark ((roundedSize n + 4095) / 4096 * 4096) (roundedSize n)) := by
  have hs := hr.toShape
  have hsize : realSize n = roundedSize n := realSize_eq hround
  have hpages : pagesNeeded (roundedSize n) = (roundedSize n + 4095) / 4096 := pagesNeeded_eq hpage
  have hlt : n + 4103 < 2 ^ 32 := by
    unfold roundedSize at hpage
    omega
  refine ⟨hs.freeList_sorted, ?_, ?_⟩
  · rintro ⟨x, hx, hfit⟩
    rw [hs.freeList_spans] at hx
    rcases hs.kmalloc_search hn with ⟨us, a, s, vs, rfl, hfit', hsmall, hok⟩ | ⟨hsmall, -⟩
    · have hlt' := hr.fit_small (b := ⟨a, s, none⟩) (by simp) hlt hfit'
      obtain ⟨ws, hr', hws, -⟩ := hr.takeBlock hn hlt' hfit'
      refine ⟨freeSpans us, a, s, freeSpans vs, _, ?_, ?_, hsize ▸ hfit', hok, ?_, ?_⟩
      · rw [hs.freeList_spans, freeSpans_append, freeSpans_free]
      · rw [forall_freeSpans, ← hsize]
        exact hsmall
      · rw [hr'.toShape.freeList_spans, freeSpans_append, freeSpans_live, freeSpans_append, hws,
          hsize, List.append_assoc]
      · exact heapWatermark_takeBlock _ _ _
    -- the search missed no block: `x` was large enough
    · rw [hsize] at hsmall
      have := forall_freeSpans.mpr hsmall x hx
      omega
  · intro hall
    rw [hs.freeList_spans, forall_freeSpans] at hall
    rcases hs.kmalloc_search hn with ⟨us, a, s, vs, rfl, hfit', -, -⟩ | ⟨-, hok⟩
    · have := hall ⟨a, s, none⟩ (by simp) rfl
      simp only at this
      omega
    · rcases hr.growHeap hlt ((freeAddrs bs).getLastD 0) with
        ⟨m, hpanic, hm⟩ | ⟨paging, -, hg, hend, hok'⟩
      · rw [hsize, hpages] at hpanic
        exact .inl ⟨m, hpanic, hok.trans hm⟩
      · have hs' := hs.grow paging hn (hr.grow_small hlt hend) hend
        refine .inr ⟨_, hok.trans hok', ?_, ?_⟩
        · rw [heapWatermark_carveBlock, hsize, hpages]
          exact congrArg _ (Nat.mul_comm _ _)
        · rw [hs'.freeList_spans, freeSpans_append, freeSpans_newBlocks, hs.freeList_spans, hsize,
            hpages]

theorem spareHeap_freeList : freeList spareHeap = [(4096, 4096)] :=
  spareHeap_rep.toShape.freeList_spans

theorem first_fit_or_growth_sample : ∃ h', kmalloc spareHeap 100 = .ok (4104, h') ∧
    freeList h' = [(4208, 3984)] := by
  obtain ⟨-, hfit, -⟩ := first_fit_or_growth spareHeap 4096 spareBlocks spareHeap_rep 100
    (by decide) (by decide) (by decide)
  obtain ⟨pre, a, s, post, h', hlist, -, -, hok, hlist', -⟩ := hfit (by
    rw [spareHeap_freeList]
    exact ⟨_, List.mem_singleton_self _, by decide⟩)
  rw [spareHeap_freeList] at hlist
  cases pre with
  | nil =>
    obtain ⟨hhead, rfl⟩ := List.cons.inj hlist
    cases hhead
    exact ⟨h', hok, hlist'.trans (by decide)⟩
  | cons x pre => exact absurd (congrArg List.length hlist) (by simp)

/-- With no frame left growth ends in the panic of `alloc_page`. -/
theorem growth_out_of_memory : Rep spareHeap 4096 spareBlocks ∧
    (∀ x ∈ freeList spareHeap, x.2 < roundedSize 5000) ∧
    kmalloc spareHeap 5000 = .error (.panic "Out of RAM\n") := by
  have hsmall : ∀ x ∈ freeList spareHeap, x.2 < roundedSize 5000 := by
    rw [spareHeap_freeList]
    decide
  have hsize : realSize 5000 = roundedSize 5000 := by decide
  have hpages : growPages spareHeap (pagesNeeded (realSize 5000)) =
      .error (.panic "Out of RAM\n") := rfl
  refine ⟨spareHeap_rep, hsmall, ?_⟩
  rw [spareHeap_freeList] at hsmall
  rcases spareHeap_rep.toShape.kmalloc_search (n := 5000) (by decide) with
    ⟨us, a, s, vs, hbs, hfit, -, -⟩ | ⟨-, hok⟩
  · have hmem : (a, s) ∈ freeSpans spareBlocks := by
      rw [hbs]
      simp
    have := hsmall (a, s) hmem
    simp only at this
    omega
  · rw [hok, growHeap, hpages]
    rfl

end Fits

section Undo

variable {h : HeapState} {start n : ℕ} {us vs bs : List Block}

end Undo

end KallarOS.Heap
