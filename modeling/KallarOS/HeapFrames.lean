import KallarOS.HeapRuns

namespace KallarOS.Heap
open ByteMemory Chains Tilings Pmm Paging Function Relation

/-- `h'` differs from `h` at most in the bytes of `P`. -/
def Within (P : ℕ → Prop) (h h' : HeapState) : Prop := ∀ i, ¬P i → h'.mem i = h.mem i

/-- The eight bytes of a header belong to `P`. -/
def Header (P : ℕ → Prop) (a : ℕ) : Prop := ∀ i, a ≤ i → i < a + headerSize → P i

namespace Within

variable {P : ℕ → Prop} {h h' : HeapState} {a b v prev : ℕ}

theorem refl (h : HeapState) : Within P h h := fun _ _ => rfl

theorem trans {h'' : HeapState} (hw : Within P h h') (hw' : Within P h' h'') : Within P h h'' :=
  fun i hi => (hw' i hi).trans (hw i hi)

theorem setSize (hP : Header P a) : Within P h (h.setSizeAndFlags a v) := by
  intro i hi
  apply write32_apply_disjoint
  by_contra hcon
  exact hi (hP i (by omega) (by unfold headerSize; omega))

theorem setNext (hP : Header P a) : Within P h (h.setNextFreeSlot a v) := by
  intro i hi
  apply write32_apply_disjoint
  by_contra hcon
  exact hi (hP i (by omega) (by unfold headerSize; omega))

theorem relink (hP : prev ≠ 0 → Header P prev) : Within P h (h.relink prev a) := by
  unfold HeapState.relink
  split_ifs with h0
  · exact refl h
  · exact setNext (hP h0)

theorem absorb (hP : Header P a) : Within P h (absorb h a b) :=
  (setSize hP).trans (setNext hP)

theorem mergeNext (hP : Header P a) : Within P h (mergeNext h a b) := by
  unfold Heap.mergeNext
  split_ifs
  · exact absorb hP
  · exact refl h

theorem mergePrev (hP : prev ≠ 0 → Header P prev) : Within P h (mergePrev h prev a) := by
  unfold Heap.mergePrev
  split_ifs with hc
  · exact absorb (hP hc.1)
  · exact refl h

theorem takeBlock {size : ℕ} (ha : Header P a) (hprev : prev ≠ 0 → Header P prev)
    (hnew : headerSize + 4 ≤ sub32 (clearFlag (h.sizeAndFlags a)) size → Header P (add32 a size)) :
    Within P h (takeBlock h a prev size) := by
  unfold Heap.takeBlock
  simp only
  split_ifs with hroom
  · have hn := hnew hroom
    exact (((((setSize hn).trans (setSize hn)).trans (setSize ha)).trans (setSize ha)).trans
      (setNext hn)).trans (relink hprev)
  · exact (setSize ha).trans (relink hprev)

theorem carveBlock {size : ℕ} (ha : Header P a) (hprev : h.freeListHead ≠ 0 → Header P prev)
    (hlast : headerSize + 4 ≤ sub32 (pagesNeeded size * 4096 % 2 ^ 32) size →
      Header P (add32 a size)) :
    Within P h (carveBlock h a prev size) := by
  unfold Heap.carveBlock
  simp only
  split_ifs with hroom hhead
  · have hl := hlast hroom
    exact ((((setSize hl).trans (setSize hl)).trans (setNext hl)).trans (setSize ha)).trans
      (setSize ha)
  · have hl := hlast hroom
    exact (((((setSize hl).trans (setSize hl)).trans (setNext hl)).trans (setSize ha)).trans
      (setSize ha)).trans (setNext (hprev hhead))
  · exact setSize ha

end Within

/-- The bytes of the free blocks. -/
def FreeByte (bs : List Block) (i : ℕ) : Prop :=
  ∃ b ∈ bs, b.tag = none ∧ b.addr ≤ i ∧ i < b.addr + b.size

section Calls

variable {h h' : HeapState} {start n p : ℕ} {bs us vs : List Block}

theorem Shape.header_freeByte (hs : Shape h start bs) {b : Block} (hb : b ∈ bs)
    (hfree : b.tag = none) : Header (FreeByte bs) b.addr := by
  intro i hi hi'
  have hbounds := (hs.tiles.mem_bounds hb).2.2
  unfold headerSize at hi'
  exact ⟨b, hb, hfree, hi, by omega⟩

/-- The last free block of a part of the heap, when there is one. -/
theorem Shape.header_last (hs : Shape h start (us ++ vs)) (h0 : (freeAddrs us).getLastD 0 ≠ 0) :
    Header (FreeByte (us ++ vs)) ((freeAddrs us).getLastD 0) := by
  rcases (freeAddrs us).eq_nil_or_concat' with hf | ⟨xs, x, hf⟩
  · simp [hf] at h0
  · have hmem : (freeAddrs us).getLastD 0 ∈ freeAddrs us := by simp [hf]
    obtain ⟨b, hb, hfree, hba⟩ := mem_freeAddrs.mp hmem
    rw [← hba]
    exact hs.header_freeByte (by simp [hb]) hfree

/-- `kmalloc` writes to free blocks and to new pages only. -/
theorem Rep.kmalloc_within (hr : Rep h start bs) (hlt : n + 23 + 4095 < 2 ^ 32)
    (hok : Heap.kmalloc h n = .ok (p, h')) :
    Within (fun i => FreeByte bs i ∨ h.heapWatermark ≤ i) h h' := by
  have hs := hr.toShape
  have himp : ∀ {a}, Header (FreeByte bs) a → Header (fun i => FreeByte bs i ∨ h.heapWatermark ≤ i) a :=
    fun hP i hi hi' => .inl (hP i hi hi')
  by_cases hn : n = 0
  · subst hn
    cases hok
    exact Within.refl h
  rcases hr.kmalloc_cases (n := n) (by omega) (by omega) with
    ⟨m, hm⟩ | ⟨us, a, s, vs, rfl, hfit, -, hok'⟩ | ⟨paging, -, -, -, hend, hok'⟩
  · rw [hm] at hok
    cases hok
  · cases hok'.symm.trans hok
    obtain ⟨-, -, hdvd, hend, -⟩ := hs.cut
    have hmem : (⟨a, s, none⟩ : Block) ∈ us ++ ⟨a, s, none⟩ :: vs := by simp
    have hhead : Header (FreeByte (us ++ ⟨a, s, none⟩ :: vs)) a := hs.header_freeByte hmem rfl
    simp only at hdvd hend
    apply Within.takeBlock (himp hhead) fun h0 => himp (hs.header_last h0)
    intro hroom
    -- the header of the rest still lies inside the old free block
    rw [hs.header_free, clearFlag_succ (by omega), sub32_of_le hfit (by omega)] at hroom
    rw [add32_of_lt (by omega)]
    intro i hi hi'
    unfold headerSize at hroom hi'
    exact .inl ⟨_, hmem, rfl, by simp only; omega, by simp only; omega⟩
  · cases hok'.symm.trans hok
    refine Within.carveBlock (h := grown h paging (pagesNeeded (realSize n)))
      (fun i hi _ => .inr hi) (fun h0 => himp ?_) fun _ => ?_
    -- the link to a new rest is stored in the last free block
    · have hs' : Shape h start (bs ++ []) := by simpa using hs
      have hlast := hs'.header_last (hs.last_eq_zero.not.mpr h0)
      rwa [List.append_nil] at hlast
    · have hpages := pagesNeeded_eq (x := realSize n) (by rw [realSize_eq (by omega)]; omega)
      rw [add32_of_lt (by omega)]
      exact fun i hi _ => .inr (by omega)

/-- `kfree` writes to free blocks and to the header of the block it frees. -/
theorem Rep.kfree_within (hr : Rep h start bs) (hp : Live bs p n) (hok : Heap.kfree h p = .ok h') :
    Within (fun i => FreeByte bs i ∨ (p ≤ i + headerSize ∧ i < p)) h h' := by
  have hs := hr.toShape
  obtain ⟨⟨a, s, tag⟩, hb, rfl, rfl⟩ := hp
  obtain ⟨us, vs, rfl⟩ := List.append_of_mem hb
  cases hs.kfree_eq.symm.trans hok
  have ha : Header (fun i => FreeByte (us ++ ⟨a, s, some n⟩ :: vs) i ∨
      (a + headerSize ≤ i + headerSize ∧ i < a + headerSize)) a :=
    fun i hi hi' => .inr ⟨by omega, hi'⟩
  have hprev : (freeAddrs us).getLastD 0 ≠ 0 → Header (fun i =>
      FreeByte (us ++ ⟨a, s, some n⟩ :: vs) i ∨
        (a + headerSize ≤ i + headerSize ∧ i < a + headerSize)) ((freeAddrs us).getLastD 0) :=
    fun h0 i hi hi' => .inl (hs.header_last h0 i hi hi')
  exact ((((Within.setSize ha).trans (Within.setNext ha)).trans (Within.relink hprev)).trans
    (Within.mergeNext ha)).trans (Within.mergePrev hprev)

end Calls

section Results

variable {h h' : HeapState} {start p n q m : ℕ} {bs : List Block}

/-- Where a live payload lies. -/
theorem Shape.payload (hs : Shape h start bs) (hp : Live bs p n) :
    ∃ b ∈ bs, b.tag = some n ∧ b.addr + headerSize = p ∧ p + n ≤ b.addr + b.size := by
  obtain ⟨b, hb, htag, rfl⟩ := hp
  have hsize := (hs.fits b hb n htag).2.2
  exact ⟨b, hb, htag, rfl, by unfold headerSize; omega⟩

theorem Shape.payloads_apart (hs : Shape h start bs) (hp : Live bs p n) (hq : Live bs q m)
    (hne : p ≠ q) : p + n ≤ q ∨ q + m ≤ p := by
  obtain ⟨b, hb, -, hbp, hend⟩ := hs.payload hp
  obtain ⟨c, hc, -, hcq, hend'⟩ := hs.payload hq
  have hbc : b ≠ c := by
    rintro rfl
    exact hne (hbp.symm.trans hcq)
  rcases hs.tiles.apart hb hc hbc with hap | hap <;> omega

theorem Shape.payload_header (hs : Shape h start bs) (hp : Live bs p n) {c : Block} (hc : c ∈ bs) :
    p + n ≤ c.addr ∨ c.addr + headerSize ≤ p := by
  obtain ⟨b, hb, -, hbp, hend⟩ := hs.payload hp
  have hsize := (hs.tiles.mem_bounds hc).2.2
  by_cases hbc : b = c
  · subst hbc
    exact .inr (by omega)
  · rcases hs.tiles.apart hb hc hbc with hap | hap
    · exact .inl (by omega)
    · exact .inr (by unfold headerSize at *; omega)

/-- The block `q` was handed out for keeps its payload and its size word. -/
def Kept (h h' : HeapState) (q m : ℕ) : Prop :=
  (∀ i, q ≤ i → i < q + m → h'.mem i = h.mem i) ∧
    h'.sizeAndFlags (q - headerSize) = h.sizeAndFlags (q - headerSize)

/-- Writes that miss the block keep it. -/
theorem Shape.kept {P : ℕ → Prop} (hs : Shape h start bs) (hw : Within P h h') (hq : Live bs q m)
    (hP : ∀ b ∈ bs, b.tag = some m → b.addr + headerSize = q →
      ∀ i, b.addr ≤ i → i < b.addr + b.size → ¬P i) : Kept h h' q m := by
  obtain ⟨b, hb, htag, hbq, hend⟩ := hs.payload hq
  have hout := hP b hb htag hbq
  have hbounds := (hs.tiles.mem_bounds hb).2.2
  refine ⟨fun i hi hi' => hw i (hout i (by omega) (by omega)), ?_⟩
  rw [show q - headerSize = b.addr by omega]
  exact read32_congr fun i hi hi' => hw i (hout i hi (by omega))

/-- The bytes of a live block are not those of a free one. -/
theorem Shape.not_freeByte (hs : Shape h start bs) {b : Block} (hb : b ∈ bs) (htag : b.tag = some m)
    {i : ℕ} (hi : b.addr ≤ i) (hi' : i < b.addr + b.size) : ¬FreeByte bs i := by
  rintro ⟨c, hc, hfree, hci, hci'⟩
  have hbc : b ≠ c := by
    rintro rfl
    rw [hfree] at htag
    cases htag
  rcases hs.tiles.apart hb hc hbc with hap | hap <;> omega

theorem Rep.kmalloc_kept (hr : Rep h start bs) (hlt : n + 23 + 4095 < 2 ^ 32)
    (hok : Heap.kmalloc h n = .ok (p, h')) (hq : Live bs q m) : Kept h h' q m := by
  apply hr.toShape.kept (hr.kmalloc_within hlt hok) hq
  intro b hb htag _ i hi hi'
  have hbounds := (hr.tiles.mem_bounds hb).2.1
  rintro (hfree | hwm)
  · exact hr.toShape.not_freeByte hb htag hi hi' hfree
  · omega

theorem Rep.kfree_kept (hr : Rep h start bs) (hp : Live bs p n)
    (hok : Heap.kfree h p = .ok h') (hq : Live bs q m) (hne : q ≠ p) : Kept h h' q m := by
  apply hr.toShape.kept (hr.kfree_within hp hok) hq
  intro b hb htag hbq i hi hi'
  rintro (hfree | ⟨hpi, hpi'⟩)
  · exact hr.toShape.not_freeByte hb htag hi hi' hfree
  · obtain ⟨c, hc, -, hcp⟩ := hp
    have hbc : b ≠ c := by
      rintro rfl
      exact hne (hbq.symm.trans hcp)
    have hbounds := (hr.tiles.mem_bounds hc).2.2
    -- the freed header is the front of another block
    rcases hr.tiles.apart hb hc hbc with hap | hap
    · omega
    · unfold headerSize at *
      omega

variable (l : Layout) (mem : Mem) (mbd : MultibootInfo) (es : List MmapEntry)

/-- In every reachable heap, whatever the clients have stored, live payloads are
apart from each other and from every header, and neither `kmalloc` nor `kfree`
changes a byte of them or the size word of another live block. -/
theorem heap_noninterference (hm : MemoryMap mem mbd es) (ho : ∀ e ∈ es, e.Ordinary)
    (f : BootFrames l) (ram : ℕ → ℕ → ℕ) (bytes : Mem) (hk : l.kernelEnd + 0x400FFF < 2 ^ 32) :
    ∃ p₀, pmmInit l mem mbd = .ok p₀ ∧
      ∀ k, ReflTransGen Tracked.Step (f.start ram p₀) k →
        ∀ s, ReflTransGen Session.Step (boot bytes k.state l.kernelEnd) s →
          ∃ bs : List Block,
            (Tiles 16 (heapStart l.kernelEnd) bs s.heap.heapWatermark ∧
              ∀ p n, s.live p = some n ↔ Live bs p n) ∧
            (∀ p n q m, s.live p = some n → s.live q = some m → p ≠ q → p + n ≤ q ∨ q + m ≤ p) ∧
            (∀ p n, s.live p = some n → ∀ b ∈ bs, p + n ≤ b.addr ∨ b.addr + headerSize ≤ p) ∧
            (∀ n p h', n + 23 + 4095 < 2 ^ 32 → kmalloc s.heap n = .ok (p, h') →
              ∀ q m, s.live q = some m → Kept s.heap h' q m) ∧
            ∀ p n h', s.live p = some n → kfree s.heap p = .ok h' →
              ∀ q m, s.live q = some m → q ≠ p → Kept s.heap h' q m := by
  obtain ⟨p₀, hp₀, hgood⟩ := f.start_good hm ho ram
  refine ⟨p₀, hp₀, fun k hrun s hs => ?_⟩
  obtain ⟨bs, h⟩ := (boot_inv bytes (f.growable hgood hrun) hk).run hs
  have hrep := h.rep
  refine ⟨bs, ⟨hrep.tiles, h.live⟩, ?_, ?_, ?_, ?_⟩
  · intro p n q m hp hq hne
    exact hrep.payloads_apart ((h.live p n).mp hp) ((h.live q m).mp hq) hne
  · intro p n hp b hb
    exact hrep.payload_header ((h.live p n).mp hp) hb
  · intro n p h' hlt hok q m hq
    exact hrep.kmalloc_kept hlt hok ((h.live q m).mp hq)
  · intro p n h' hp hok q m hq hne
    exact hrep.kfree_kept ((h.live p n).mp hp) hok ((h.live q m).mp hq) hne

/-- Two blocks are live, and the first is freed. -/
theorem heap_noninterference_sample :
    ∃ p₀ a₁ a₂ s h', pmmInit sampleLayout sampleMap ⟨0x1000, 24⟩ = .ok p₀ ∧
      ReflTransGen Session.Step (sampleBoot p₀) s ∧ s.live a₁ = some 100 ∧ s.live a₂ = some 200 ∧
      (a₁ + 100 ≤ a₂ ∨ a₂ + 200 ≤ a₁) ∧ kfree s.heap a₁ = .ok h' ∧ Kept s.heap h' a₂ 200 := by
  obtain ⟨p₀, hp₀, h⟩ := heap_noninterference sampleLayout sampleMap ⟨0x1000, 24⟩ [sampleEntry]
    sampleMap_wellFormed sampleEntry_ordinary sampleFrames (fun _ _ => 0) (fun _ => 0xAA) (by decide)
  obtain ⟨p, a₁, a₂, h₁, h₂, h₃, hp, -, -, hok₃, hne, hrun⟩ := sample_calls
  cases hp₀.symm.trans hp
  obtain ⟨bs, -, hapart, -, -, hfree⟩ := h _ .refl _ hrun
  have hlive₁ : update (update (fun _ => none) a₁ (some 100)) a₂ (some 200) a₁ = some 100 := by
    simp [hne.symm]
  have hlive₂ : update (update (fun _ => none) a₁ (some 100)) a₂ (some 200) a₂ = some 200 := by simp
  exact ⟨p₀, a₁, a₂, _, h₃, hp₀, hrun, hlive₁, hlive₂, hapart _ _ _ _ hlive₁ hlive₂ hne.symm, hok₃,
    hfree _ _ _ hlive₁ hok₃ _ _ hlive₂ hne⟩

end Results

end KallarOS.Heap
