import KallarOS.HeapCalls

namespace KallarOS.Heap
open ByteMemory Chains Tilings Pmm Paging Function Relation

/-- The heap, and the addresses `kmalloc` has handed out and `kfree` has not taken
back, each with its request. -/
structure Session where
  heap : HeapState
  live : ℕ → Option ℕ

/-- What the kernel does with its heap: requests that do not wrap, frees of live
addresses, and stores into the bytes it asked for. -/
inductive Session.Step : Session → Session → Prop where
  | kmalloc {s : Session} {n p : ℕ} {h' : HeapState} : n + 23 + 4095 < 2 ^ 32 →
      kmalloc s.heap n = .ok (p, h') →
      Step s ⟨h', if n = 0 then s.live else update s.live p (some n)⟩
  | kfree {s : Session} {n p : ℕ} {h' : HeapState} : s.live p = some n →
      kfree s.heap p = .ok h' → Step s ⟨h', update s.live p none⟩
  | store {s : Session} {n p i : ℕ} (v : UInt8) : s.live p = some n → p ≤ i → i < p + n →
      Step s ⟨{ s.heap with mem := update s.heap.mem i v }, s.live⟩

section Runs

variable {h : HeapState} {start n p i : ℕ} {bs : List Block}

/-- Nothing but the headers matters to the representation. -/
theorem Rep.overwrite (hr : Rep h start bs) {mem : Mem}
    (hmiss : ∀ b ∈ bs, ∀ i, b.addr ≤ i → i < b.addr + headerSize → mem i = h.mem i) :
    Rep { h with mem := mem } start bs := by
  have hs := hr.toShape
  have hword : ∀ b ∈ bs, ∀ k, k + 4 ≤ headerSize →
      read32 mem (b.addr + k) = read32 h.mem (b.addr + k) := by
    intro b hb k hk
    exact read32_congr fun i hi hi' => hmiss b hb i (by omega) (by omega)
  refine ⟨⟨hs.start_pos, hs.start_aligned, hs.watermark_lt, hs.watermark_aligned, hs.tiles,
    fun b hb => ?_, ⟨?_, hs.list.nonnull⟩, hs.fits⟩, hr.separated, hr.growable⟩
  · rw [← hs.header b hb]
    exact hword b hb 0 (by decide)
  · refine (path_congr fun x hx => ?_).mpr hs.list.path
    obtain ⟨b, hb, -, rfl⟩ := mem_freeAddrs.mp hx
    exact hword b hb 4 (by decide)

/-- The bytes of a block behind its header are in no header. -/
theorem Shape.data_header (hs : Shape h start bs) {b c : Block} (hb : b ∈ bs) (hc : c ∈ bs)
    (hi : b.addr + headerSize ≤ i) (hi' : i < b.addr + b.size) :
    i < c.addr ∨ c.addr + headerSize ≤ i := by
  have hdvd := (hs.tiles.mem_bounds hc).2.2
  by_cases hbc : b = c
  · subst hbc
    exact .inr hi
  · unfold headerSize at *
    rcases hs.tiles.apart hb hc hbc with hap | hap <;> omega

/-- A store into a live payload misses every header. -/
theorem Rep.store (hr : Rep h start bs) (hp : Live bs p n) (hi : p ≤ i) (hi' : i < p + n)
    (v : UInt8) : Rep { h with mem := update h.mem i v } start bs := by
  obtain ⟨b, hb, htag, rfl⟩ := hp
  have hsize := (hr.fits b hb n htag).2.2
  apply hr.overwrite
  intro c hc j hj hj'
  have hmiss := hr.toShape.data_header hb hc hi (by unfold headerSize at hi'; omega)
  exact update_of_ne (by omega) _ _

/-- The blocks behind a session. -/
structure Session.Inv (s : Session) (start : ℕ) (bs : List Block) : Prop where
  rep : Rep s.heap start bs
  live : ∀ p n, s.live p = some n ↔ Live bs p n

theorem Session.Inv.step {s s' : Session} (h : s.Inv start bs) (hstep : s.Step s') :
    ∃ bs', s'.Inv start bs' := by
  cases hstep with
  | @kmalloc n p h' hlt hok =>
    by_cases hn : n = 0
    · subst hn
      cases hok
      exact ⟨bs, h⟩
    rcases h.rep.kmalloc (by omega) hlt with ⟨m, hm⟩ | ⟨q, h'', bs', hok', hrep, hnew, hlive⟩
    · rw [hm] at hok
      cases hok
    cases hok'.symm.trans hok
    refine ⟨bs', hrep, fun q m => ?_⟩
    simp only [if_neg hn, update_apply]
    split_ifs with hq
    · subst hq
      simp [hlive, hnew, eq_comm]
    · rw [h.live, hlive]
      simp [hq]
  | @kfree n p h' hp hok =>
    obtain ⟨h'', bs', hok', hrep, hlive⟩ := h.rep.kfree ((h.live p n).mp hp)
    cases hok'.symm.trans hok
    refine ⟨bs', hrep, fun q m => ?_⟩
    simp only [update_apply]
    split_ifs with hq
    · simp [hlive, hq]
    · rw [h.live, hlive]
      simp [hq]
  | store v hp hi hi' => exact ⟨bs, h.rep.store ((h.live _ _).mp hp) hi hi' v, h.live⟩

theorem Session.Inv.run {s s' : Session} (h : s.Inv start bs) (hr : ReflTransGen Session.Step s s') :
    ∃ bs', s'.Inv start bs' := by
  induction hr with
  | refl => exact ⟨bs, h⟩
  | tail _ hstep ih =>
    obtain ⟨bs', h'⟩ := ih
    exact h'.step hstep

end Runs

section Results

/-- The globals are zero before `kmalloc_init`. -/
def boot (bytes : Mem) (paging : PagingState) (kernelEnd : ℕ) : Session :=
  ⟨kmallocInit ⟨bytes, 0, 0, paging⟩ kernelEnd, fun _ => none⟩

def heapStart (kernelEnd : ℕ) : ℕ := (kernelEnd + 0x400FFF) / 4096 * 4096

theorem boot_inv (bytes : Mem) {paging : PagingState} {kernelEnd : ℕ} (hg : Growable paging)
    (hk : kernelEnd + 0x400FFF < 2 ^ 32) :
    (boot bytes paging kernelEnd).Inv (heapStart kernelEnd) [] := by
  have hwm : (boot bytes paging kernelEnd).heap.heapWatermark = heapStart kernelEnd := by
    simp only [boot, kmallocInit, pageAlignUp, pageAlignDown, add32, heapStart]
    omega
  refine ⟨⟨⟨?_, ?_, ?_, ?_, ?_, by simp, ⟨rfl, by simp⟩, by simp⟩, .nil, hg⟩, by simp [boot]⟩
  · unfold heapStart
    omega
  · exact Dvd.intro_left _ rfl
  · rw [hwm]
    unfold heapStart
    omega
  · exact hwm ▸ Dvd.intro_left _ rfl
  · exact hwm.symm

variable (l : Layout) (mem : Mem) (mbd : MultibootInfo) (es : List MmapEntry)

/-- After every call the bytes between heap start and watermark are blocks, the
free list enumerates the free ones in address order, no two of them touch, and
every live block has the rounded size of its request. Both walks end: `kmalloc`
returns or `alloc_page` panics, and `kfree` of a live address returns. -/
theorem heap_representation (hm : MemoryMap mem mbd es) (ho : ∀ e ∈ es, e.Ordinary)
    (f : BootFrames l) (ram : ℕ → ℕ → ℕ) (bytes : Mem) (hk : l.kernelEnd + 0x400FFF < 2 ^ 32) :
    ∃ p, pmmInit l mem mbd = .ok p ∧
      ∀ k, ReflTransGen Tracked.Step (f.start ram p) k →
        ∀ s, ReflTransGen Session.Step (boot bytes k.state l.kernelEnd) s →
          ∃ bs : List Block,
            (Tiles 16 (heapStart l.kernelEnd) bs s.heap.heapWatermark ∧
              ∀ b ∈ bs, s.heap.sizeAndFlags b.addr = if b.tag = none then b.size + 1 else b.size) ∧
            (Linked 0 s.heap.nextFreeSlot s.heap.freeListHead (freeAddrs bs) ∧
              (freeAddrs bs).Pairwise (· < ·)) ∧
            bs.IsChain (fun x y => ¬ (x.tag = none ∧ y.tag = none)) ∧
            ((∀ b ∈ bs, ∀ n, b.tag = some n → b.size = (n + 8 + 15) / 16 * 16) ∧
              ∀ a n, s.live a = some n ↔ Live bs a n) ∧
            (∀ n, n + 23 + 4095 < 2 ^ 32 → (∃ r, kmalloc s.heap n = .ok r) ∨
              ∃ m, kmalloc s.heap n = .error (.panic m)) ∧
            ∀ a n, s.live a = some n → ∃ h', kfree s.heap a = .ok h' := by
  obtain ⟨p, hp, hgood⟩ := f.start_good hm ho ram
  refine ⟨p, hp, fun k hrun s hs => ?_⟩
  obtain ⟨bs, h⟩ := (boot_inv bytes (f.growable hgood hrun) hk).run hs
  have hrep := h.rep
  refine ⟨bs, ⟨hrep.tiles, fun b hb => ?_⟩, ⟨hrep.list, ?_⟩, ?_, ⟨fun b hb n hn => ?_, h.live⟩,
    fun n hn => ?_, fun a n ha => ?_⟩
  · rw [hrep.header b hb, headerWord]
    simp [isFree]
  · exact hrep.tiles.addr_lt.sublist (List.filter_sublist.map _)
  · exact hrep.separated.imp fun x y hxy => by simpa [isFree] using hxy
  · exact (hrep.fits b hb n hn).2.2
  · by_cases h0 : n = 0
    · exact .inl ⟨(0, s.heap), by rw [kmalloc, if_pos h0]⟩
    · rcases hrep.kmalloc (by omega) hn with hm | ⟨q, h', _, hok, -⟩
      · exact .inr hm
      · exact .inl ⟨_, hok⟩
  · obtain ⟨h', _, hok, -⟩ := hrep.kfree ((h.live a n).mp ha)
    exact ⟨h', hok⟩

/-- The sample machine after `kmalloc_init`. -/
def sampleBoot (p : PmmState) : Session :=
  boot (fun _ => 0xAA) (sampleFrames.start (fun _ _ => 0) p).state sampleLayout.kernelEnd

/-- Two requests of the sample machine, the second from the page of the first, and a free. -/
theorem sample_calls : ∃ p a₁ a₂ h₁ h₂ h₃, pmmInit sampleLayout sampleMap ⟨0x1000, 24⟩ = .ok p ∧
    kmalloc (sampleBoot p).heap 100 = .ok (a₁, h₁) ∧ kmalloc h₁ 200 = .ok (a₂, h₂) ∧
    kfree h₂ a₁ = .ok h₃ ∧ a₂ ≠ a₁ ∧ ReflTransGen Session.Step (sampleBoot p)
      ⟨h₂, update (update (fun _ => none) a₁ (some 100)) a₂ (some 200)⟩ := by
  obtain ⟨p, hp, hi⟩ := pmmInit_ok sampleLayout sampleMap_wellFormed sampleEntry_ordinary
  have hgood : (sampleFrames.start (fun _ _ => 0) p).Good :=
    ⟨sampleFrames.start_sound _ sampleEntry_ordinary hi, sampleFrames.start_filled _⟩
  have hinv := boot_inv (fun _ => 0xAA) (sampleFrames.growable hgood .refl)
    (by decide : sampleLayout.kernelEnd + 0x400FFF < 2 ^ 32)
  have ha : Call.Allowed (.alloc 0xC0520000 3) _ := sample_allowed hi (by decide)
  obtain ⟨b, paging, hpage, -⟩ := hgood.allocPage_returns ha (sample_absent p rfl (by decide))
  have hwm : (sampleBoot p).heap.heapWatermark = 0xC0520000 := hinv.rep.tiles.symm.trans (by decide)
  have hgrow : growPages (sampleBoot p).heap (pagesNeeded (realSize 100)) = .ok
      { (sampleBoot p).heap with
        paging := paging
        heapWatermark := add32 (sampleBoot p).heap.heapWatermark 4096 } := by
    have hone : pagesNeeded (realSize 100) = 1 := by decide
    rw [hone]
    refine growPages_one ?_
    rw [hwm]
    exact hpage
  obtain ⟨h₁, hok₁, hrep₁⟩ := hinv.rep.kmalloc_first (by decide) (by decide) hgrow
  -- the rest of the page is a free block, and large enough
  have hfit : ∃ r, kmalloc h₁ 200 = .ok r := by
    rcases hrep₁.toShape.kmalloc_search (by decide : 0 < 200) with ⟨_, _, _, _, -, -, -, hok⟩ | ⟨hsmall, -⟩
    · exact ⟨_, hok⟩
    · rw [newBlocks, if_neg (by decide)] at hsmall
      have hrest : pagesNeeded (realSize 100) * 4096 - realSize 100 < realSize 200 :=
        hsmall _ (.tail _ (.head _)) rfl
      exact absurd hrest (by decide)
  obtain ⟨⟨a₂, h₂⟩, hok₂⟩ := hfit
  rcases hrep₁.kmalloc (by decide : 0 < 200) (by decide) with ⟨m, hm⟩ | ⟨q, h', bs, hok', hrep₂, hnew, hlive⟩
  · cases hok₂.symm.trans hm
  cases hok₂.symm.trans hok'
  have hlive₁ : Live (newBlocks (sampleBoot p).heap.heapWatermark 100)
      ((sampleBoot p).heap.heapWatermark + headerSize) 100 := live_newBlocks.mpr ⟨rfl, rfl⟩
  obtain ⟨h₃, -, hok₃, -⟩ := hrep₂.kfree ((hlive _ _).mpr (.inr hlive₁))
  refine ⟨p, _, _, h₁, h₂, h₃, hp, hok₁, hok₂, hok₃, fun hc => hnew 100 (hc ▸ hlive₁), ?_⟩
  exact (ReflTransGen.single (.kmalloc (n := 100) (by decide) hok₁)).tail (.kmalloc (n := 200) (by decide) hok₂)

/-- Two blocks were asked for and the first is free again. -/
theorem heap_representation_sample :
    ∃ p a₁ a₂ s, pmmInit sampleLayout sampleMap ⟨0x1000, 24⟩ = .ok p ∧
      ReflTransGen Session.Step (sampleBoot p) s ∧ ∃ bs : List Block,
        Tiles 16 (heapStart sampleLayout.kernelEnd) bs s.heap.heapWatermark ∧
        Linked 0 s.heap.nextFreeSlot s.heap.freeListHead (freeAddrs bs) ∧
        bs.IsChain (fun x y => ¬ (x.tag = none ∧ y.tag = none)) ∧
        (∀ n, ¬ Live bs a₁ n) ∧ Live bs a₂ 200 ∧ ∃ h', kfree s.heap a₂ = .ok h' := by
  obtain ⟨p, hp, h⟩ := heap_representation sampleLayout sampleMap ⟨0x1000, 24⟩ [sampleEntry]
    sampleMap_wellFormed sampleEntry_ordinary sampleFrames (fun _ _ => 0) (fun _ => 0xAA) (by decide)
  obtain ⟨p', a₁, a₂, h₁, h₂, h₃, hp', -, -, hok₃, hne, hrun⟩ := sample_calls
  cases hp.symm.trans hp'
  have hfree := hrun.tail (.kfree (n := 100) (by simp [hne.symm]) hok₃)
  obtain ⟨bs, ⟨htiles, -⟩, ⟨hlist, -⟩, hchain, ⟨-, hlive⟩, -, hkfree⟩ := h _ .refl _ hfree
  have hgone : ∀ n, ¬ Live bs a₁ n := fun n hn => by simpa using (hlive a₁ n).mpr hn
  have hleft : update (update (update (fun _ => none) a₁ (some 100)) a₂ (some 200)) a₁ none a₂ =
      some 200 := by simp [hne]
  exact ⟨p, a₁, a₂, _, hp, hfree, bs, htiles, hlist, hchain, hgone, (hlive a₂ 200).mp hleft,
    hkfree a₂ 200 hleft⟩

end Results

end KallarOS.Heap
