import KallarOS.HeapBacking

namespace KallarOS.Heap
open ByteMemory Chains Tilings Pmm Paging Function Relation

section Sizes

variable {h : HeapState} {start n : ℕ} {bs : List Block}

/-- `kmalloc(n)` panics or hands out `n` bytes of one live block below the watermark,
and neither of its two roundings loses bytes. -/
structure ServesWhole (h : HeapState) (start n : ℕ) : Prop where
  rounded : n + headerSize ≤ realSize n
  paged : realSize n ≤ 4096 * pagesNeeded (realSize n)
  served : (∃ m, kmalloc h n = .error (.panic m)) ∨
    ∃ p h' bs', kmalloc h n = .ok (p, h') ∧ Rep h' start bs' ∧ p + n < 2 ^ 32 ∧
      p + n ≤ h'.heapWatermark ∧
      ∃ b ∈ bs', b.tag = some n ∧ b.addr + headerSize = p ∧ p + n ≤ b.addr + b.size

/-- Past this size one of the roundings wraps: first the page count, to 0, then the
size of the block, to 0 or 16. -/
theorem not_rounded_or_not_paged (hn : 2 ^ 32 ≤ n + 4103) (hlt : n < 2 ^ 32) :
    realSize n < n + headerSize ∨ 4096 * pagesNeeded (realSize n) < realSize n := by
  unfold pagesNeeded realSize headerSize add32
  omega

theorem rounded_and_paged (hlt : n + 4103 < 2 ^ 32) :
    n + headerSize ≤ realSize n ∧ realSize n ≤ 4096 * pagesNeeded (realSize n) := by
  unfold pagesNeeded realSize headerSize add32
  omega

/-- The largest sizes that do not wrap ask for more pages than there are addresses. -/
theorem Rep.kmalloc_huge (hr : Rep h start bs) (hn : 2 ^ 32 ≤ n + 23 + 4095)
    (hlt : n + 4103 < 2 ^ 32) : ∃ m, Heap.kmalloc h n = .error (.panic m) := by
  have hs := hr.toShape
  have hstart := hs.start_pos
  have hal := hs.start_aligned
  have hsize : realSize n = 2 ^ 32 - 4096 := by
    rw [realSize_eq (by omega)]
    omega
  rcases hr.kmalloc_cases (n := n) (by omega) hlt with
    hpanic | ⟨us, a, s, vs, rfl, hfit, -⟩ | ⟨paging, -, -, -, hend, -⟩
  · exact hpanic
  -- no block is that large, and behind the watermark there is not enough room
  · obtain ⟨-, -, -, hlast, hle, -⟩ := hs.cut
    simp only at hlast hle
    omega
  · have hwm := hs.tiles.le
    rw [hsize, pagesNeeded_eq (by decide)] at hend
    omega

theorem Rep.serves (hr : Rep h start bs) (hn : 0 < n) (hlt : n + 4103 < 2 ^ 32) :
    ServesWhole h start n := by
  obtain ⟨hround, hpage⟩ := rounded_and_paged hlt
  refine ⟨hround, hpage, ?_⟩
  by_cases hhuge : 2 ^ 32 ≤ n + 23 + 4095
  · exact .inl (hr.kmalloc_huge hhuge hlt)
  rcases hr.kmalloc hn (by omega) with hpanic | ⟨p, h', bs', hok, hr', -, hlive⟩
  · exact .inl hpanic
  obtain ⟨b, hb, htag, haddr⟩ := (hlive p n).mpr (.inl ⟨rfl, rfl⟩)
  have hsize := (hr'.fits b hb n htag).2.2
  have hbound := (hr'.tiles.mem_bounds hb).2.1
  have hwm := hr'.watermark_lt
  have hin : p + n ≤ b.addr + b.size := by
    unfold headerSize at haddr
    omega
  exact .inr ⟨p, h', bs', hok, hr', by omega, by omega, b, hb, htag, haddr, hin⟩

/-- `kmalloc` serves a request of any heap exactly up to the size at which the page
count wraps. -/
theorem kmalloc_serves_iff (h : HeapState) (start : ℕ) (bs : List Block) (hr : Rep h start bs)
    (n : ℕ) (hn : 0 < n) (hlt : n < 2 ^ 32) : ServesWhole h start n ↔ n + 4103 < 2 ^ 32 := by
  constructor
  · intro hserve
    by_contra hge
    rcases not_rounded_or_not_paged (by omega) hlt with hlost | hlost
    · exact absurd hserve.rounded (by omega)
    · exact absurd hserve.paged (by omega)
  · exact hr.serves hn

/-- A directory with nothing but its own slot, and no frame to give. -/
def rootPaging : PagingState where
  phys f i := if f = 1 ∧ i = 1023 then 4096 ||| ptePresent ||| pteRw else 0
  cr3 := 1
  refCounter _ := 0
  pagingEnabled := true
  pmm := ⟨fun _ => 0, 0, 0, 0⟩

theorem rootPaging_growable : Growable rootPaging where
  rooted := by
    refine ⟨by decide, by decide, ?_⟩
    intro d hd hp
    have h0 : rootPaging.pde d = 0 := if_neg fun he => absurd he.2 hd.ne
    rw [h0] at hp
    exact absurd hp (by decide)
  root_pos := by decide
  root_used hf := absurd hf.1 (by decide)
  padded _ _ hw := absurd hw (Nat.not_lt_zero _)
  maxBlocks_le := by decide

/-- One free block of a page. -/
def spareBlocks : List Block := [⟨4096, 4096, none⟩]

def spareHeap : HeapState where
  mem := write32 (fun _ => 0) 4096 4097
  freeListHead := 4096
  heapWatermark := 8192
  paging := rootPaging

/-- A heap that is one free block. -/
theorem Rep.oneFree {h : HeapState} {start size : ℕ} (hpos : 0 < start) (hal : 4096 ∣ start)
    (hsize : 0 < size) (hdvd : 4096 ∣ size) (hlt : start + size < 2 ^ 32)
    (hwm : h.heapWatermark = start + size) (hhead : h.freeListHead = start)
    (hword : h.sizeAndFlags start = size + 1) (hnext : h.nextFreeSlot start = 0)
    (hg : Growable h.paging) : Rep h start [⟨start, size, none⟩] where
  start_pos := hpos
  start_aligned := hal
  watermark_lt := hwm ▸ hlt
  watermark_aligned := hwm ▸ hal.add hdvd
  tiles := ⟨rfl, hsize, Nat.dvd_trans (by decide) hdvd, hwm.symm⟩
  header := by
    intro b hb
    rw [List.mem_singleton.mp hb]
    exact hword
  list := ⟨⟨hhead, hnext⟩, by simpa [freeAddrs, isFree] using hpos.ne'⟩
  fits := by
    intro b hb
    rw [List.mem_singleton.mp hb]
    exact fits_free
  separated := by simp [Separated]
  growable := hg

theorem spareHeap_rep : Rep spareHeap 4096 spareBlocks :=
  .oneFree (by decide) (by decide) (by decide) (by decide) (by decide) rfl rfl
    (read32_write32_self _ _ (by decide)) (read32_write32_disjoint _ _ (by decide))
    rootPaging_growable

theorem kmalloc_serves_iff_sample : ServesWhole spareHeap 4096 100 :=
  (kmalloc_serves_iff spareHeap 4096 spareBlocks spareHeap_rep 100 (by decide) (by decide)).mpr
    (by decide)

/-- A request of nearly 4 GiB comes back with a block of 16 bytes. -/
theorem kmalloc_wraps_to_header : Rep spareHeap 4096 spareBlocks ∧
    ∃ h', kmalloc spareHeap 0xFFFFFFF9 = .ok (4104, h') ∧ h'.sizeAndFlags 4096 = 16 ∧
      ¬ ServesWhole spareHeap 4096 0xFFFFFFF9 := by
  have hsize : realSize 0xFFFFFFF9 = 16 := by decide
  refine ⟨spareHeap_rep, ?_⟩
  rcases spareHeap_rep.toShape.kmalloc_search (n := 0xFFFFFFF9) (by decide) with
    ⟨us, a, s, vs, hbs, -, -, hok⟩ | ⟨hsmall, -⟩
  · obtain ⟨rfl, rfl, rfl⟩ : us = [] ∧ a = 4096 ∧ s = 4096 := by
      cases us with
      | nil =>
        obtain ⟨hb, -⟩ := List.cons.inj hbs
        cases hb
        exact ⟨rfl, rfl, rfl⟩
      | cons u us => exact absurd (congrArg List.length hbs) (by simp [spareBlocks])
    have hword : spareHeap.sizeAndFlags 4096 = 4096 + 1 := read32_write32_self _ _ (by decide)
    obtain ⟨h', he, ed⟩ := takeBlock_split (r := 16) 0 (by decide) (by decide) (by decide) hword
      (by decide) (by decide)
    rw [hsize] at hok
    refine ⟨_, hok, ?_, ?_⟩
    · rw [freeAddrs_nil, List.getLastD_nil, he, sizeAndFlags_relink (by decide) (by decide),
        ed.size _ (by decide), update_self]
    · intro hserve
      have := hserve.rounded
      rw [hsize] at this
      exact absurd this (by decide)
  · have := hsmall ⟨4096, 4096, none⟩ (by simp [spareBlocks]) rfl
    rw [hsize] at this
    exact absurd this (by decide)

end Sizes

section Alignment

/-- A run of requests of any size, of frees of live addresses and of stores into what
was asked for, with the addresses `kmalloc` returned in it. -/
inductive Session.Issues : Session → List ℕ → Session → Prop where
  | done {s : Session} : Issues s [] s
  | kmalloc {s s' : Session} {n p : ℕ} {h' : HeapState} {ps : List ℕ} :
      kmalloc s.heap n = .ok (p, h') →
      Issues ⟨h', if n = 0 then s.live else update s.live p (some n)⟩ ps s' → Issues s (p :: ps) s'
  | kfree {s s' : Session} {n p : ℕ} {h' : HeapState} {ps : List ℕ} : s.live p = some n →
      kfree s.heap p = .ok h' → Issues ⟨h', update s.live p none⟩ ps s' → Issues s ps s'
  | store {s s' : Session} {n p i : ℕ} {ps : List ℕ} (v : UInt8) : s.live p = some n → p ≤ i →
      i < p + n → Issues ⟨{ s.heap with mem := update s.heap.mem i v }, s.live⟩ ps s' →
      Issues s ps s'

variable {h h' : HeapState} {start n p : ℕ} {bs : List Block}

theorem growHeap_address {previous size : ℕ} (hal : 4096 ∣ h.heapWatermark)
    (hok : growHeap h previous size = .ok (p, h')) : p % 16 = 8 := by
  obtain ⟨h₁, -, hret⟩ := Outcome.bind_eq_ok.mp hok
  cases hret
  unfold add32 headerSize
  omega

/-- In a heap of whole blocks every address is 8 past a multiple of 16. -/
theorem Shape.kmalloc_address (hs : Shape h start bs) (hok : kmalloc h n = .ok (p, h'))
    (hp : p ≠ 0) : p % 16 = 8 := by
  by_cases hn : n = 0
  · rw [kmalloc, if_pos hn] at hok
    cases hok
    exact absurd rfl hp
  rcases hs.kmalloc_search (n := n) (by omega) with ⟨us, a, s, vs, rfl, -, -, hok'⟩ | ⟨-, hok'⟩
  · have ha : 16 ∣ a := hs.cut.1
    cases hok'.symm.trans hok
    unfold headerSize
    omega
  · exact growHeap_address hs.watermark_aligned (hok'.symm.trans hok)

theorem boot_address {bytes : Mem} {paging : PagingState} {kernelEnd : ℕ} (hn : n ≠ 0)
    (hok : kmalloc (boot bytes paging kernelEnd).heap n = .ok (p, h')) : p % 16 = 8 := by
  have hgrow : kmalloc (boot bytes paging kernelEnd).heap n =
      growHeap (boot bytes paging kernelEnd).heap 0 (realSize n) := by
    rw [kmalloc, if_neg hn]
    rfl
  have hal : 4096 ∣ (boot bytes paging kernelEnd).heap.heapWatermark := Dvd.intro_left _ rfl
  exact growHeap_address hal (hgrow.symm.trans hok)

/-- The first address that is not 0 comes from the heap as `kmalloc_init` left it. -/
theorem boot_issues {bytes : Mem} {paging : PagingState} {kernelEnd : ℕ} {ps : List ℕ} {s : Session}
    (hrun : (boot bytes paging kernelEnd).Issues ps s) (hp : ∃ p ∈ ps, p ≠ 0) :
    ∃ p ∈ ps, p ≠ 0 ∧ p % 16 = 8 := by
  -- while only `kmalloc(0)` was called nothing is live, and the heap is still that of boot
  generalize hs₀ : boot bytes paging kernelEnd = s₀ at hrun
  induction hrun with
  | done =>
    obtain ⟨p, hmem, -⟩ := hp
    exact absurd hmem List.not_mem_nil
  | @kmalloc s₀ s n p h' ps hok hrun ih =>
    subst hs₀
    by_cases hn : n = 0
    · subst hn
      cases hok
      obtain ⟨q, hq, hq0, hmod⟩ := ih (by simpa using hp) rfl
      exact ⟨q, List.mem_cons_of_mem _ hq, hq0, hmod⟩
    · have hmod := boot_address hn hok
      exact ⟨p, List.mem_cons_self, by omega, hmod⟩
  | kfree hlive _ _ _ =>
    subst hs₀
    cases hlive
  | store _ hlive _ _ _ _ =>
    subst hs₀
    cases hlive

variable (l : Layout) (mem : Mem) (mbd : MultibootInfo) (es : List MmapEntry)

/-- No run gives aligned addresses: the first one is 8 past a multiple of 16, and so
is every one as long as no size wraps. -/
theorem kmalloc_never_aligned (hm : MemoryMap mem mbd es) (ho : ∀ e ∈ es, e.Ordinary)
    (f : BootFrames l) (ram : ℕ → ℕ → ℕ) (bytes : Mem) (hk : l.kernelEnd + 0x400FFF < 2 ^ 32) :
    ∃ p, pmmInit l mem mbd = .ok p ∧
      ∀ k, ReflTransGen Tracked.Step (f.start ram p) k →
        (∀ ps s, (boot bytes k.state l.kernelEnd).Issues ps s → (∃ a ∈ ps, a ≠ 0) →
          ¬ ∀ a ∈ ps, a ≠ 0 → 16 ∣ a) ∧
        ∀ s, ReflTransGen Session.Step (boot bytes k.state l.kernelEnd) s →
          ∀ n a h', kmalloc s.heap n = .ok (a, h') → a ≠ 0 → a % 16 = 8 := by
  obtain ⟨p, hp, hgood⟩ := f.start_good hm ho ram
  refine ⟨p, hp, fun k hrun => ⟨?_, ?_⟩⟩
  · intro ps s hissues hsome haligned
    obtain ⟨a, ha, ha0, hmod⟩ := boot_issues hissues hsome
    have := haligned a ha ha0
    omega
  · intro s hs n a h' hok ha0
    obtain ⟨bs, hinv⟩ := (boot_inv bytes (f.growable hgood hrun) hk).run hs
    exact hinv.rep.toShape.kmalloc_address hok ha0

/-- The first two addresses of the sample machine. -/
theorem kmalloc_never_aligned_sample :
    ∃ p a₁ a₂ h₁ h₂, pmmInit sampleLayout sampleMap ⟨0x1000, 24⟩ = .ok p ∧
      kmalloc (sampleBoot p).heap 100 = .ok (a₁, h₁) ∧ kmalloc h₁ 200 = .ok (a₂, h₂) ∧
      a₁ % 16 = 8 ∧ (a₂ ≠ 0 → a₂ % 16 = 8) ∧ ¬ ∀ a ∈ [a₁, a₂], a ≠ 0 → 16 ∣ a := by
  obtain ⟨p, hp, h⟩ := kmalloc_never_aligned sampleLayout sampleMap ⟨0x1000, 24⟩ [sampleEntry]
    sampleMap_wellFormed sampleEntry_ordinary sampleFrames (fun _ _ => 0) (fun _ => 0xAA) (by decide)
  obtain ⟨p', a₁, a₂, h₁, h₂, h₃, hp', hok₁, hok₂, -⟩ := sample_calls
  cases hp.symm.trans hp'
  obtain ⟨hissues, haddress⟩ := h _ .refl
  have hmod := boot_address (by decide) hok₁
  have hstep : (sampleBoot p).Step ⟨h₁, _⟩ := .kmalloc (n := 100) (by decide) hok₁
  exact ⟨p, a₁, a₂, h₁, h₂, hp, hok₁, hok₂, hmod, haddress _ (.single hstep) 200 a₂ h₂ hok₂,
    hissues [a₁, a₂] _ (.kmalloc (n := 100) hok₁ (.kmalloc (n := 200) hok₂ .done))
      ⟨a₁, by simp, by omega⟩⟩

/-- The first `kmalloc(1)` of the sample machine. -/
theorem first_address_misaligned :
    ∃ p s₁ a h', pmmInit sampleLayout sampleMap ⟨0x1000, 24⟩ = .ok p ∧
      Paging.mapPage (sampleFrames.start (fun _ _ => 0) p).state apicAddr apicAddr heapFlags =
        .ok s₁ ∧
      kmalloc (boot (fun _ => 0xAA) s₁ sampleLayout.kernelEnd).heap 1 = .ok (a, h') ∧
      a ≠ 0 ∧ ¬ 16 ∣ a := by
  obtain ⟨p, s₁, -, hp, -, -, he, -, -, ⟨a, h'⟩, hok⟩ := sample_run
  have hmod := boot_address (by decide) hok
  exact ⟨p, s₁, a, h', hp, he, hok, by omega, by omega⟩

end Alignment

end KallarOS.Heap
