import KallarOS.HeapFrames
import KallarOS.PagingAccounts

namespace KallarOS.Paging
open Pmm

/-- The directory after a `map_page`, and the frames it can still hand out. -/
structure Extends (s s' : PagingState) (flags : ℕ) : Prop where
  directory : ∀ d < 1023, s'.pde d = s.pde d ∨ ∃ b, s'.pde d = b * 4096 ||| dirFlags flags
  free : ∀ b, s'.pmm.Free b → s.pmm.Free b
  spent : ∃ t, ∀ b, b ≠ t → s.pmm.Free b → s'.pmm.Free b

section Extending

variable {s s' : PagingState} {owned : Finset ℕ} {va physAddr flags : ℕ}

theorem Sound.mapPage_extends (h : Sound s owned) (hva : va < 0xFFC00000)
    (ha : Present (s.pde (dirIndex va)) ∨ CanAlloc s.pmm)
    (he : Paging.mapPage s va physAddr flags = .ok s') : Extends s s' flags := by
  rcases h.mapPage_cases hva ha he with ⟨-, hpmm, hpde⟩ | ⟨b, -, -, hpmm, -, -, hpde⟩
  · refine ⟨fun d _ => .inl (hpde d), ?_, 0, ?_⟩ <;> rw [hpmm]
    · exact fun b hb => hb
    · exact fun b _ hb => hb
  · refine ⟨fun d _ => ?_, ?_, b, ?_⟩
    · rw [hpde]
      split_ifs
      · exact .inr ⟨b, rfl⟩
      · exact .inl rfl
    · rw [hpmm]
      exact fun c hc => Tables.free_of_allotted hc
    · rw [hpmm]
      exact fun c hne hc => Tables.free_allotted hne hc

/-- `alloc_page` returns only with a frame. -/
theorem canAlloc_of_allocPage (he : allocPage s va flags = .ok s') :
    ∃ addr pmm', pmmAllocFrame s.pmm = .ok (addr, pmm') ∧ addr ≠ 0 := by
  unfold allocPage at he
  split_ifs at he
  obtain ⟨mapped, -, he⟩ := Outcome.bind_eq_ok.mp he
  split_ifs at he
  obtain ⟨⟨addr, pmm'⟩, hok, he⟩ := Outcome.bind_eq_ok.mp he
  simp only at he
  split_ifs at he with h0
  exact ⟨addr, pmm', hok, h0⟩

end Extending

/-- The RW bit of a directory or table entry. -/
def Writable (entry : ℕ) : Prop := entry.testBit 1 = true

theorem writable_or {a f : ℕ} (hf : f.testBit 1 = true) : Writable (a ||| f) := by
  rw [Writable, Nat.testBit_or, hf, Bool.or_true]

theorem writable_dirFlags (b flags : ℕ) : Writable (b * 4096 ||| dirFlags flags) := by
  apply writable_or
  unfold dirFlags
  split_ifs <;> decide

end KallarOS.Paging

namespace KallarOS.Heap
open ByteMemory Chains Tilings Pmm Paging Function Relation

/-- The pages from `start` up to the watermark. -/
def heapPages (start watermark : ℕ) : Finset ℕ := Finset.Ico (start / 4096) (watermark / 4096)

def heapFlags : ℕ := ptePresent ||| pteRw

def apicAddr : ℕ := 0xFEE00000

/-- The page tables under the heap: its pages have frames of their own, and beside
them only the boot window and the APIC page are mapped. `P` holds of every frame
the allocator may hand out. -/
structure Backed (P : ℕ → Prop) (start : ℕ) (s : PagingState) (watermark : ℕ) : Prop where
  good : Tracked.Good ⟨s, heapPages start watermark⟩
  aligned : 4096 ∣ watermark
  start_le : start ≤ watermark
  low : watermark ≤ apicAddr
  high : 0xC0400000 ≤ start
  window : ∀ i < 1024, pageFrame s (768 * 1024 + i) = some i
  apic : pageFrame s (page apicAddr) = some (apicAddr / 4096)
  only : ∀ v, v / 1024 < 1023 → pageFrame s v ≠ none →
    v ∈ heapPages start watermark ∨ v / 1024 = 768 ∨ v = page apicAddr
  directory : ∀ d < 1023, Present (s.pde d) → Writable (s.pde d)
  entry : ∀ v ∈ heapPages start watermark,
    ∃ pde b, walk s (4096 * v) = some (pde, b * 4096 ||| heapFlags) ∧ b < 2 ^ 20 ∧ P b
  free : ∀ b, s.pmm.Free b → P b

variable {P : ℕ → Prop} {start watermark : ℕ} {s s' : PagingState}

theorem heapPages_succ (hle : start ≤ watermark) :
    heapPages start (watermark + 4096) = insert (page watermark) (heapPages start watermark) := by
  ext v
  rw [page_eq_div, Finset.mem_insert, heapPages, heapPages, Finset.mem_Ico, Finset.mem_Ico]
  omega

/-- What `alloc_page` at the watermark does: it maps a free frame there, and nothing else
changes but a page table that was missing. -/
theorem Backed.allocPage_effect (h : Backed P start s watermark)
    (hok : Paging.allocPage s watermark heapFlags = .ok s')
    (htab : Present (s.pde (dirIndex watermark)) ∨
      ∀ addr pmm', pmmAllocFrame s.pmm = .ok (addr, pmm') → CanAlloc pmm') :
    walk s watermark = none ∧ Tracked.Good ⟨s', insert (page watermark) (heapPages start watermark)⟩ ∧
      SameElsewhere s s' watermark ∧ ∃ b pde, s.pmm.Free b ∧ b < 2 ^ 20 ∧
        walk s' watermark = some (pde, b * 4096 ||| heapFlags) ∧
        Extends (s.withPmm (s.pmm.allotted b)) s' heapFlags := by
  have hsound := h.good.sound
  have hlow := h.low
  have hva : watermark < 0xFFC00000 := by unfold apicAddr at hlow; omega
  have hfl : heapFlags < 4096 := by decide
  have hpr : Present heapFlags := by decide
  have hw := hsound.walk_none_of_allocPage hva hok
  obtain ⟨addr, pmm', hframe, h0⟩ := canAlloc_of_allocPage hok
  obtain ⟨b, hb, hframe'⟩ := hsound.tables.canAlloc ⟨addr, pmm', hframe, h0⟩
  have hnext : Present (s.pde (dirIndex watermark)) ∨ CanAlloc (s.pmm.allotted b) :=
    htab.imp_right fun hall => hall _ _ hframe'
  obtain ⟨t, ht, hs', ⟨pde, hhere⟩, helse, hfill, -⟩ :=
    hsound.allocPage hva hfl hpr hw hb hframe' hnext
  cases Except.ok.inj (ht.symm.trans hok)
  have hext : Extends (s.withPmm (s.pmm.allotted b)) s' heapFlags :=
    (hsound.allot hb).1.mapPage_extends hva hnext
      ((hsound.allocPage_eq hva hw hb hframe').symm.trans hok)
  have hblt : b < 2 ^ 20 := hb.1.trans_le hsound.tables.maxBlocks_le
  exact ⟨hw, ⟨hs', hfill h.good.filled⟩, helse, b, pde, hb, hblt, hhere, hext⟩

/-- One more page at the watermark. -/
theorem Backed.allocPage (h : Backed P start s watermark)
    (hok : Paging.allocPage s watermark heapFlags = .ok s')
    (htab : Present (s.pde (dirIndex watermark)) ∨
      ∀ addr pmm', pmmAllocFrame s.pmm = .ok (addr, pmm') → CanAlloc pmm') :
    Backed P start s' (watermark + 4096) := by
  obtain ⟨hw, hgood, helse, b, pde, hb, hblt, hhere, hext⟩ := h.allocPage_effect hok htab
  have hlow := h.low
  have hal := h.aligned
  have hva : watermark < 0xFFC00000 := by unfold apicAddr at hlow; omega
  have hne : watermark ≠ apicAddr := by
    rintro rfl
    have hframe := h.apic
    rw [pageFrame_page, hw] at hframe
    exact Option.some_ne_none _ hframe.symm
  have hpages := heapPages_succ h.start_le
  have hpage : ∀ v ∈ heapPages start watermark, v ≠ page watermark := by
    intro v hv hc
    rw [page_eq_div] at hc
    rw [heapPages, Finset.mem_Ico] at hv
    omega
  constructor
  · rw [hpages]
    exact hgood
  · exact hal.add (by decide)
  · exact h.start_le.trans (Nat.le_add_right _ _)
  · unfold apicAddr at hlow hne ⊢
    omega
  · exact h.high
  · intro i hi
    have hstart := h.start_le
    have hhigh := h.high
    have hpi : 768 * 1024 + i ≠ page watermark := by
      rw [page_eq_div]
      omega
    rw [helse.pageFrame_eq (by omega) hpi]
    exact h.window i hi
  · have hpa : page apicAddr ≠ page watermark := by
      rw [page_eq_div, page_eq_div]
      unfold apicAddr at hlow hne ⊢
      omega
    rw [helse.pageFrame_eq (by decide) hpa]
    exact h.apic
  · intro v hv hmapped
    rw [hpages, Finset.mem_insert]
    by_cases hvp : v = page watermark
    · exact .inl (.inl hvp)
    · rw [helse.pageFrame_eq hv hvp] at hmapped
      exact (h.only v hv hmapped).imp_left .inr
  · intro d hd hp
    rcases hext.directory d hd with hsame | ⟨c, hc⟩
    · rw [hsame] at hp ⊢
      exact h.directory d hd hp
    · rw [hc]
      exact writable_dirFlags c heapFlags
  · intro v hv
    rw [hpages, Finset.mem_insert] at hv
    rcases hv with rfl | hv
    · have haddr : 4096 * page watermark = watermark := by
        rw [page_eq_div]
        omega
      rw [haddr]
      exact ⟨pde, b, hhere, hblt, h.free b hb⟩
    · have hvlt : 4096 * v < 0xFFC00000 := by
        rw [heapPages, Finset.mem_Ico] at hv
        omega
      have hvp : page (4096 * v) = v := by
        rw [page_eq_div]
        omega
      rw [helse (4096 * v) hvlt (by rw [hvp]; exact hpage v hv)]
      exact h.entry v hv
  · intro c hc
    exact h.free c (Tables.free_of_allotted (hext.free c hc))

section Growth

/-- No page table that `n` more pages need is missing for want of a frame. -/
def TablesFound (h : HeapState) : ℕ → Prop
  | 0 => True
  | n + 1 =>
    (Present (h.paging.pde (dirIndex h.heapWatermark)) ∨
      ∀ addr pmm', pmmAllocFrame h.paging.pmm = .ok (addr, pmm') → CanAlloc pmm') ∧
    ∀ paging, Paging.allocPage h.paging h.heapWatermark heapFlags = .ok paging →
      TablesFound { h with paging := paging, heapWatermark := add32 h.heapWatermark 4096 } n

theorem Backed.growPages {h h' : HeapState} {n : ℕ} (hb : Backed P start h.paging h.heapWatermark)
    (hfound : TablesFound h n) (hok : Heap.growPages h n = .ok h') :
    Backed P start h'.paging h'.heapWatermark := by
  induction n generalizing h with
  | zero =>
    cases hok
    exact hb
  | succ n ih =>
    obtain ⟨htab, hrest⟩ := hfound
    rw [Heap.growPages] at hok
    obtain ⟨paging, hpage, hok⟩ := Outcome.bind_eq_ok.mp hok
    have hlow := hb.low
    have hadd : add32 h.heapWatermark 4096 = h.heapWatermark + 4096 :=
      add32_of_lt (by unfold apicAddr at hlow; omega)
    refine ih ?_ (hrest paging hpage) hok
    simp only [hadd]
    exact hb.allocPage hpage htab

end Growth

/-- The steps of a session in which no page table is missing for want of a frame. -/
inductive Session.Fed : Session → Session → Prop where
  | keep {s s' : Session} : s.Step s' → s'.heap.heapWatermark = s.heap.heapWatermark → Fed s s'
  | grow {s : Session} {n p : ℕ} {h' : HeapState} : n + 23 + 4095 < 2 ^ 32 →
      kmalloc s.heap n = .ok (p, h') → TablesFound s.heap (pagesNeeded (realSize n)) →
      Fed s ⟨h', if n = 0 then s.live else update s.live p (some n)⟩

theorem Session.Fed.step {s s' : Session} (h : s.Fed s') : s.Step s' := by
  cases h with
  | keep hstep _ => exact hstep
  | grow hlt hok _ => exact .kmalloc hlt hok

@[simp] theorem heapWatermark_takeBlock {h : HeapState} (a prev r : ℕ) :
    (takeBlock h a prev r).heapWatermark = h.heapWatermark := by
  unfold takeBlock
  simp only
  split_ifs <;> simp

@[simp] theorem heapWatermark_carveBlock {h : HeapState} (a prev r : ℕ) :
    (carveBlock h a prev r).heapWatermark = h.heapWatermark := by
  unfold carveBlock
  simp only
  split_ifs <;> rfl

section Steps

variable {h h' : HeapState} {n p : ℕ} {bs : List Block}

theorem Backed.kmalloc (hb : Backed P start h.paging h.heapWatermark) (hr : Rep h start bs)
    (hlt : n + 23 + 4095 < 2 ^ 32) (hok : Heap.kmalloc h n = .ok (p, h'))
    (hfound : h'.heapWatermark ≠ h.heapWatermark → TablesFound h (pagesNeeded (realSize n))) :
    Backed P start h'.paging h'.heapWatermark ∧ h.heapWatermark ≤ h'.heapWatermark := by
  by_cases hn : n = 0
  · subst hn
    cases hok
    exact ⟨hb, le_rfl⟩
  rcases hr.kmalloc_cases (n := n) (by omega) (by omega) with
    ⟨m, hm⟩ | ⟨us, a, s, vs, -, -, -, hok'⟩ | ⟨paging, -, hgrow, -, -, hok'⟩
  · rw [hm] at hok
    cases hok
  · cases hok'.symm.trans hok
    simpa using hb
  · cases hok'.symm.trans hok
    rw [paging_carveBlock, heapWatermark_carveBlock] at *
    refine ⟨?_, Nat.le_add_right _ _⟩
    apply hb.growPages ?_ hgrow
    by_cases hsame : (grown h paging (pagesNeeded (realSize n))).heapWatermark = h.heapWatermark
    · have hzero : pagesNeeded (realSize n) = 0 := by
        simp only [grown] at hsame
        omega
      rw [hzero]
      trivial
    · exact hfound hsame

theorem kfree_globals (hr : Rep h start bs) (hp : Live bs p n) (hok : kfree h p = .ok h') :
    h'.paging = h.paging ∧ h'.heapWatermark = h.heapWatermark := by
  obtain ⟨⟨a, s, tag⟩, hb, rfl, rfl⟩ := hp
  obtain ⟨us, vs, rfl⟩ := List.append_of_mem hb
  obtain ⟨h'', hok', hwm, hpaging, -⟩ := hr.toShape.kfree hr.separated
  cases hok'.symm.trans hok
  exact ⟨hpaging, hwm⟩

end Steps

theorem Session.Fed.backed {s s' : Session} {bs : List Block} (hs : s.Inv start bs)
    (hb : Backed P start s.heap.paging s.heap.heapWatermark) (hstep : s.Fed s') :
    Backed P start s'.heap.paging s'.heap.heapWatermark ∧
      s.heap.heapWatermark ≤ s'.heap.heapWatermark := by
  cases hstep with
  | grow hlt hok hfound => exact hb.kmalloc hs.rep hlt hok fun _ => hfound
  | keep hstep hsame =>
    cases hstep with
    | kmalloc hlt hok => exact hb.kmalloc hs.rep hlt hok fun hne => absurd hsame hne
    | kfree hp hok =>
      obtain ⟨hpaging, hwm⟩ := kfree_globals hs.rep ((hs.live _ _).mp hp) hok
      simp only [hpaging, hwm]
      exact ⟨hb, le_rfl⟩
    | store v hp hi hi' => exact ⟨hb, le_rfl⟩

theorem Session.fed_run {s s' : Session} {bs : List Block} (hs : s.Inv start bs)
    (hb : Backed P start s.heap.paging s.heap.heapWatermark)
    (hrun : ReflTransGen Session.Fed s s') :
    ∃ bs', s'.Inv start bs' ∧ Backed P start s'.heap.paging s'.heap.heapWatermark := by
  induction hrun with
  | refl => exact ⟨bs, hs, hb⟩
  | tail _ hstep ih =>
    obtain ⟨bs', hs', hb'⟩ := ih
    obtain ⟨bs'', hs''⟩ := hs'.step hstep.step
    exact ⟨bs'', hs'', (hstep.backed hs' hb').1⟩

section Boot

variable {l : Layout} {es : List MmapEntry} {p : PmmState} {f : BootFrames l} {ram : ℕ → ℕ → ℕ}

/-- After boot the table at index 768 maps the first 4 MiB, and nothing else is mapped. -/
theorem pageFrame_start {v : ℕ} (hv : v / 1024 < 1023) :
    pageFrame (f.start ram p).state v = if v / 1024 = 768 then some (v % 1024) else none := by
  have hdir := f.dirStop
  have htab := f.tableStop
  have hbehind := l.behind
  have hroom := l.room
  split_ifs with h768
  · have hpde : (f.start ram p).state.pde (v / 1024) = f.table * 4096 ||| 3 := by
      rw [f.pde_start, bootDirectory, if_pos h768]
    have htable : (f.start ram p).state.table (v / 1024) = f.table := by
      rw [PagingState.table, hpde, frameOf_or (Nat.mul_mod_left _ _) (by decide)]
      omega
    have hpte : (f.start ram p).state.pte (v / 1024) (v % 1024) = v % 1024 * 4096 ||| 3 := by
      rw [PagingState.pte, htable]
      simp [BootFrames.start, pagingInit, bootState, f.ne]
    have h3 : (3 : ℕ) % 2 = 1 := by decide
    have hpresent : Present ((f.start ram p).state.pde (v / 1024)) := by
      rw [hpde]
      exact (present_or (Nat.mul_mod_left _ _) (by decide)).mpr h3
    have hentry : Present ((f.start ram p).state.pte (v / 1024) (v % 1024)) := by
      rw [hpte]
      exact (present_or (Nat.mul_mod_left _ _) (by decide)).mpr h3
    rw [pageFrame, walkAt, if_pos ⟨hpresent, hentry⟩, Option.map_some, hpte,
      Growable.frameOf_entry (by omega) (by decide)]
  · have habsent : ¬ Present ((f.start ram p).state.pde (v / 1024)) := by
      rw [f.pde_start, present_bootDirectory]
      omega
    rw [pageFrame, walkAt, if_neg fun hc => habsent hc.1]
    rfl

/-- The machine `kmalloc_init` finds, with the APIC page mapped. -/
theorem backed_start (ho : ∀ e ∈ es, e.Ordinary) (hi : Initialized l es p)
    (hk : heapStart l.kernelEnd ≤ apicAddr)
    (ha : Call.Allowed (.map apicAddr apicAddr heapFlags) (f.start ram p))
    (he : Paging.mapPage (f.start ram p).state apicAddr apicAddr heapFlags = .ok s') :
    Backed (fun b => ∃ e ∈ es, e.Holds b) (heapStart l.kernelEnd) s' (heapStart l.kernelEnd) := by
  have hsound := f.start_sound ram ho hi
  obtain ⟨hva, hpa, hfl, hpr, hal⟩ := ha
  obtain ⟨t, ht, hm⟩ := hsound.mapPage hva hpa hfl hpr hal
  cases Except.ok.inj (ht.symm.trans he)
  have hext := hsound.mapPage_extends hva hal he
  have hnone : heapPages (heapStart l.kernelEnd) (heapStart l.kernelEnd) = ∅ := Finset.Ico_self _
  have hhere : pageFrame s' (page apicAddr) = some (apicAddr / 4096) := by
    obtain ⟨pde, hw⟩ := hm.here
    have hframe : frameOf (apicAddr ||| heapFlags) = apicAddr / 4096 := by decide
    rw [pageFrame_page, hw, Option.map_some, hframe]
  constructor
  · rw [hnone]
    have hsound' := hm.sound
    rw [Finset.erase_empty] at hsound'
    exact ⟨hsound', hm.filled (f.start_filled ram)⟩
  · exact Dvd.intro_left _ rfl
  · exact le_rfl
  · exact hk
  · have := l.higherHalf
    have := l.ordered
    unfold heapStart
    omega
  · intro i hlt
    have hpi : 768 * 1024 + i ≠ page apicAddr := by
      rw [page_eq_div]
      unfold apicAddr
      omega
    rw [hm.elsewhere.pageFrame_eq (by omega) hpi, pageFrame_start (by omega), if_pos (by omega)]
    exact congrArg some (by omega)
  · exact hhere
  · intro v hv hmapped
    by_cases hvp : v = page apicAddr
    · exact .inr (.inr hvp)
    · rw [hm.elsewhere.pageFrame_eq hv hvp, pageFrame_start hv] at hmapped
      split_ifs at hmapped with h768
      · exact .inr (.inl h768)
      · exact absurd rfl hmapped
  · intro d hd hp
    rcases hext.directory d hd with hsame | ⟨c, hc⟩
    · rw [hsame, f.pde_start] at hp ⊢
      have h768 : d = 768 := by
        rw [present_bootDirectory] at hp
        omega
      rw [bootDirectory, if_pos h768]
      exact writable_or (by decide)
    · rw [hc]
      exact writable_dirFlags c heapFlags
  · rw [hnone]
    simp
  · intro b hb
    exact (hi.grantable ho (hext.free b hb)).inside

end Boot

section Results

/-- With two frames to spare the page at the watermark is found. -/
theorem Backed.allocPage_returns (h : Backed P start s watermark) (hlt : watermark < apicAddr)
    {b c : ℕ} (hbc : b ≠ c) (hb : s.pmm.Free b) (hc : s.pmm.Free c) :
    (∃ s', Paging.allocPage s watermark heapFlags = .ok s') ∧
      ∀ addr pmm', pmmAllocFrame s.pmm = .ok (addr, pmm') → CanAlloc pmm' := by
  have hsound := h.good.sound
  have hstart := h.start_le
  have hhigh := h.high
  have hal := h.aligned
  have hva : watermark < 0xFFC00000 := by unfold apicAddr at hlt; omega
  have hwin : page watermark / 1024 < 1023 := by
    rw [page_div]
    exact dirIndex_lt hva
  have hnone : pageFrame s (page watermark) = none := by
    by_contra hmapped
    rcases h.only _ hwin hmapped with hm | hm | hm <;> rw [page_eq_div] at hm
    · rw [heapPages, Finset.mem_Ico] at hm
      omega
    · omega
    · rw [page_eq_div] at hm
      unfold apicAddr at hm hlt
      omega
  have hw : walk s watermark = none := by
    rw [pageFrame_page] at hnone
    exact Option.map_eq_none_iff.mp hnone
  obtain ⟨d, hd, hok⟩ := hsound.tables.canAlloc (hsound.tables.canAlloc_of_free hb)
  have hnext : CanAlloc (s.pmm.allotted d) := by
    have htables := hsound.tables.allot d
    by_cases hdb : b = d
    · exact htables.canAlloc_of_free (Tables.free_allotted (hdb ▸ hbc.symm) hc)
    · exact htables.canAlloc_of_free (Tables.free_allotted hdb hb)
  obtain ⟨s', hs', -⟩ := hsound.allocPage hva (by decide : heapFlags < 4096)
    (by decide) hw hd hok (.inr hnext)
  refine ⟨⟨s', hs'⟩, ?_⟩
  intro addr pmm' hok'
  cases hok.symm.trans hok'
  exact hnext

theorem Session.Inv.first_request {s₀ : Session} (hinv : s₀.Inv start [])
    (h : Backed P start s₀.heap.paging s₀.heap.heapWatermark) (hlt : s₀.heap.heapWatermark < apicAddr)
    {b c : ℕ} (hbc : b ≠ c) (hb : s₀.heap.paging.pmm.Free b) (hc : s₀.heap.paging.pmm.Free c) :
    (∃ s, s₀.Fed s ∧ s₀.heap.heapWatermark < s.heap.heapWatermark) ∧
      ∃ r, kmalloc s₀.heap 1 = .ok r := by
  obtain ⟨⟨paging, hpage⟩, hfound⟩ := h.allocPage_returns hlt hbc hb hc
  have hone : pagesNeeded (realSize 1) = 1 := by decide
  have hgrow : growPages s₀.heap (pagesNeeded (realSize 1)) = .ok
      { s₀.heap with paging := paging, heapWatermark := add32 s₀.heap.heapWatermark 4096 } := by
    rw [hone]
    exact growPages_one hpage
  obtain ⟨h', hok, -⟩ := hinv.rep.kmalloc_first (by decide) (by decide) hgrow
  refine ⟨⟨_, .grow (by decide) hok ?_, ?_⟩, _, hok⟩
  · rw [hone]
    exact ⟨.inr hfound, fun _ _ => trivial⟩
  · rcases hinv.rep.kmalloc_cases (by decide : 0 < 1) (by decide) with
      ⟨m, hm⟩ | ⟨us, a, size, vs, hnil, -⟩ | ⟨paging', -, -, -, -, hok'⟩
    · cases hm.symm.trans hok
    · exact absurd hnil.symm (by simp)
    · cases hok'.symm.trans hok
      rw [heapWatermark_carveBlock, grown, hone]
      exact Nat.lt_add_of_pos_right (by decide)

/-- Page `v` has a frame of its own. The boot window keeps its page for every frame
under 4 MiB, and the APIC page shares a frame only if the memory map lists its address. -/
structure Own (es : List MmapEntry) (s : PagingState) (v b : ℕ) : Prop where
  behind : pageFrame s v = some b
  root : b ≠ s.cr3
  tables : ∀ d < 1023, Present (s.pde d) → b ≠ s.table d
  pages : ∀ w < 2 ^ 20, w ≠ v → pageFrame s w = some b →
    b < 1024 ∧ w = 0xC0000 + b ∨ w = page apicAddr ∧ ∃ e ∈ es, e.Holds (apicAddr / 4096)

/-- The pages of the recursive window show the tables and the directory. -/
theorem pageFrame_recursive (hr : Rooted s) {w b : ℕ} (hw : w / 1024 = 1023)
    (hb : pageFrame s w = some b) :
    b = s.cr3 ∨ ∃ d < 1023, Present (s.pde d) ∧ b = s.table d := by
  rw [pageFrame, hw, walkAt] at hb
  split_ifs at hb with hp
  · obtain rfl := Option.some.inj hb
    have hpte : s.pte 1023 (w % 1024) = s.pde (w % 1024) := by
      rw [PagingState.pte, hr.root]
      rfl
    rw [hpte] at hp ⊢
    by_cases hlast : w % 1024 = 1023
    · rw [hlast]
      exact .inl hr.root
    · exact .inr ⟨w % 1024, by omega, hp.2, rfl⟩
  · exact absurd hb.symm (Option.some_ne_none b)

theorem Backed.frame {v : ℕ} (h : Backed P start s watermark)
    (hv : v ∈ heapPages start watermark) :
    ∃ pde b, walk s (4096 * v) = some (pde, b * 4096 ||| heapFlags) ∧ pageFrame s v = some b ∧
      P b := by
  obtain ⟨pde, b, hw, hlt, hram⟩ := h.entry v hv
  have hpage : page (4096 * v) = v := by
    rw [page_eq_div]
    omega
  refine ⟨pde, b, hw, ?_, hram⟩
  rw [← hpage, pageFrame_page, hw, Option.map_some,
    Growable.frameOf_entry hlt (by decide : heapFlags < 4096)]

theorem Backed.own {es : List MmapEntry} {v : ℕ}
    (h : Backed (fun b => ∃ e ∈ es, e.Holds b) start s watermark)
    (hv : v ∈ heapPages start watermark) :
    ∃ pde b, walk s (4096 * v) = some (pde, b * 4096 ||| heapFlags) ∧ Present pde ∧ Writable pde ∧
      Own es s v b := by
  obtain ⟨pde, b, hw, hframe, hram⟩ := h.frame hv
  have hlow := h.low
  have hvlt := (Finset.mem_Ico.mp hv).2
  have hdir : Present pde ∧ Writable pde := by
    have hpde := h.directory (dirIndex (4096 * v)) (dirIndex_lt (by unfold apicAddr at hlow; omega))
    rw [walk, walkAt] at hw
    split_ifs at hw with hp
    obtain ⟨rfl, -⟩ := Prod.mk.inj (Option.some.inj hw)
    exact ⟨hp.1, hpde hp.1⟩
  have hapart := h.good.sound.owns.apart v hv b hframe
  refine ⟨pde, b, hw, hdir.1, hdir.2, hframe, hapart.root, hapart.tables, ?_⟩
  intro w hw20 hne hwb
  by_cases hwin : w / 1024 < 1023
  · have hmapped : pageFrame s w ≠ none := by
      rw [hwb]
      exact Option.some_ne_none b
    rcases h.only w hwin hmapped with hheap | h768 | hapic
    · exact absurd (h.good.sound.owns.inj w hheap v hv b hwb hframe) hne
    · have hboot := h.window (w % 1024) (by omega)
      have hw' : 768 * 1024 + w % 1024 = w := by omega
      rw [hw', hwb] at hboot
      have := Option.some.inj hboot
      exact .inl ⟨by omega, by omega⟩
    · rw [hapic, h.apic] at hwb
      obtain rfl := Option.some.inj hwb
      exact .inr ⟨hapic, hram⟩
  · rcases pageFrame_recursive h.good.sound.tables.rooted (by omega) hwb with
      rfl | ⟨d, hd, hp, rfl⟩
    · exact absurd rfl hapart.root
    · exact absurd rfl (hapart.tables d hd hp)

theorem backed_run {l : Layout} {es : List MmapEntry} {p : PmmState} {f : BootFrames l}
    {ram : ℕ → ℕ → ℕ} {s₁ : PagingState} {s : Session} (ho : ∀ e ∈ es, e.Ordinary)
    (hi : Initialized l es p) (bytes : Mem) (hk : heapStart l.kernelEnd ≤ apicAddr)
    (ha : Call.Allowed (.map apicAddr apicAddr heapFlags) (f.start ram p))
    (he : Paging.mapPage (f.start ram p).state apicAddr apicAddr heapFlags = .ok s₁)
    (hrun : ReflTransGen Session.Fed (boot bytes s₁ l.kernelEnd) s) :
    ∃ bs, s.Inv (heapStart l.kernelEnd) bs ∧ Backed (fun b => ∃ e ∈ es, e.Holds b)
      (heapStart l.kernelEnd) s.heap.paging s.heap.heapWatermark := by
  have hgood : (f.start ram p).Good := ⟨f.start_sound ram ho hi, f.start_filled ram⟩
  have hgrow := f.growable hgood (.single ⟨_, ha, he⟩)
  have hend : l.kernelEnd + 0x400FFF < 2 ^ 32 := by
    unfold heapStart apicAddr at hk
    omega
  have hinv := boot_inv bytes hgrow hend
  have hwm : (boot bytes s₁ l.kernelEnd).heap.heapWatermark = heapStart l.kernelEnd :=
    hinv.rep.tiles.symm
  apply Session.fed_run hinv ?_ hrun
  rw [hwm]
  exact backed_start ho hi hk ha he

variable (l : Layout) (mem : Mem) (mbd : MultibootInfo) (es : List MmapEntry)

/-- Once the APIC page is mapped, every page of the heap is present and writable in
both levels and has a frame of its own; the watermark stays on a page boundary, only
grows and stops at the APIC page. -/
theorem heap_backed (hm : MemoryMap mem mbd es) (ho : ∀ e ∈ es, e.Ordinary) (f : BootFrames l)
    (ram : ℕ → ℕ → ℕ) (bytes : Mem) (hk : heapStart l.kernelEnd ≤ apicAddr) :
    ∃ p, pmmInit l mem mbd = .ok p ∧
      ∀ s₁, Call.Allowed (.map apicAddr apicAddr heapFlags) (f.start ram p) →
        Paging.mapPage (f.start ram p).state apicAddr apicAddr heapFlags = .ok s₁ →
        ∀ s, ReflTransGen Session.Fed (boot bytes s₁ l.kernelEnd) s →
          (∀ v, heapStart l.kernelEnd ≤ 4096 * v → 4096 * v < s.heap.heapWatermark →
            ∃ pde pte b, walk s.heap.paging (4096 * v) = some (pde, pte) ∧
              (Present pde ∧ Writable pde) ∧ (Present pte ∧ Writable pte) ∧
              Own es s.heap.paging v b) ∧
          4096 ∣ s.heap.heapWatermark ∧ s.heap.heapWatermark ≤ apicAddr ∧
          ∀ s', s.Fed s' → s.heap.heapWatermark ≤ s'.heap.heapWatermark := by
  obtain ⟨p, hp, hi⟩ := pmmInit_ok l hm ho
  refine ⟨p, hp, ?_⟩
  intro s₁ ha he s hrun
  obtain ⟨bs, hinv, hb⟩ := backed_run ho hi bytes hk ha he hrun
  refine ⟨?_, hb.aligned, hb.low, ?_⟩
  · intro v hv hv'
    have hmem : v ∈ heapPages (heapStart l.kernelEnd) s.heap.heapWatermark := by
      have hal := hb.aligned
      have hal' : 4096 ∣ heapStart l.kernelEnd := Dvd.intro_left _ rfl
      rw [heapPages, Finset.mem_Ico]
      omega
    obtain ⟨pde, b, hw, hpr, hwr, hown⟩ := hb.own hmem
    have hpte : Present (b * 4096 ||| heapFlags) :=
      (present_or (Nat.mul_mod_left b 4096) (by decide)).mpr (by decide)
    exact ⟨pde, _, b, hw, ⟨hpr, hwr⟩, ⟨hpte, writable_or (by decide)⟩, hown⟩
  · intro s' hstep
    exact (hstep.backed hinv hb).2

end Results

section Sample

/-- Boot, the APIC page and one `kmalloc(1)` on the sample machine. -/
theorem sample_run : ∃ p s₁ s, pmmInit sampleLayout sampleMap ⟨0x1000, 24⟩ = .ok p ∧
    Initialized sampleLayout [sampleEntry] p ∧
    Call.Allowed (.map apicAddr apicAddr heapFlags) (sampleFrames.start (fun _ _ => 0) p) ∧
    Paging.mapPage (sampleFrames.start (fun _ _ => 0) p).state apicAddr apicAddr heapFlags =
      .ok s₁ ∧
    ReflTransGen Session.Fed (boot (fun _ => 0xAA) s₁ sampleLayout.kernelEnd) s ∧
    heapStart sampleLayout.kernelEnd < s.heap.heapWatermark ∧
    ∃ r, kmalloc (boot (fun _ => 0xAA) s₁ sampleLayout.kernelEnd).heap 1 = .ok r := by
  obtain ⟨p, hp, hi⟩ := pmmInit_ok sampleLayout sampleMap_wellFormed sampleEntry_ordinary
  obtain ⟨h1, h2, h3⟩ := sample_free hi
  have hsound := sampleFrames.start_sound (fun _ _ => 0) sampleEntry_ordinary hi
  have ha : Call.Allowed (.map apicAddr apicAddr heapFlags)
      (sampleFrames.start (fun _ _ => 0) p) :=
    ⟨by decide, by decide, by decide, by decide, .inr (hsound.tables.canAlloc_of_free h1)⟩
  have ⟨hva, hpa, hfl, hpr, hal⟩ := ha
  obtain ⟨s₁, he, -⟩ := hsound.mapPage hva hpa hfl hpr hal
  obtain ⟨t, hspent⟩ := (hsound.mapPage_extends hva hal he).spent
  -- two of the three frames are still free
  have htwo : ∃ b c, b ≠ c ∧ s₁.pmm.Free b ∧ s₁.pmm.Free c := by
    by_cases ht1 : t = 0x200
    · exact ⟨0x201, 0x202, by decide, hspent _ (by omega) h2, hspent _ (by omega) h3⟩
    · by_cases ht2 : t = 0x201
      · exact ⟨0x200, 0x202, by decide, hspent _ (by omega) h1, hspent _ (by omega) h3⟩
      · exact ⟨0x200, 0x201, by decide, hspent _ (by omega) h1, hspent _ (by omega) h2⟩
  obtain ⟨b, c, hbc, hb, hc⟩ := htwo
  have hgood : (sampleFrames.start (fun _ _ => 0) p).Good := ⟨hsound, sampleFrames.start_filled _⟩
  have hgrow : Growable s₁ := sampleFrames.growable hgood (.single ⟨_, ha, he⟩)
  have hinv := boot_inv (fun _ => 0xAA) hgrow (by decide : sampleLayout.kernelEnd + 0x400FFF < 2 ^ 32)
  obtain ⟨-, -, hback⟩ := backed_run sampleEntry_ordinary hi (fun _ => 0xAA) (by decide) ha he .refl
  obtain ⟨⟨s, hstep, hlt⟩, hone⟩ := hinv.first_request hback
    (hinv.rep.tiles.symm.trans_lt (by decide)) hbc hb hc
  exact ⟨p, s₁, s, hp, hi, ha, he, .single hstep, hinv.rep.tiles.trans_lt hlt, hone⟩

theorem heap_backed_sample :
    ∃ p s₁ s, pmmInit sampleLayout sampleMap ⟨0x1000, 24⟩ = .ok p ∧
      Paging.mapPage (sampleFrames.start (fun _ _ => 0) p).state apicAddr apicAddr heapFlags =
        .ok s₁ ∧
      ReflTransGen Session.Fed (boot (fun _ => 0xAA) s₁ sampleLayout.kernelEnd) s ∧
      0xC0520000 < s.heap.heapWatermark ∧ ∃ b, Own [sampleEntry] s.heap.paging 0xC0520 b := by
  obtain ⟨p, hp, h⟩ := heap_backed sampleLayout sampleMap ⟨0x1000, 24⟩ [sampleEntry]
    sampleMap_wellFormed sampleEntry_ordinary sampleFrames (fun _ _ => 0) (fun _ => 0xAA) (by decide)
  obtain ⟨p', s₁, s, hp', -, ha, he, hrun, hlt, -⟩ := sample_run
  cases Except.ok.inj (hp.symm.trans hp')
  have hstart : heapStart sampleLayout.kernelEnd = 4096 * 0xC0520 := by decide
  rw [hstart] at hlt
  obtain ⟨pde, pte, b, -, -, -, hown⟩ := (h s₁ ha he s hrun).1 0xC0520 hstart.le hlt
  exact ⟨p, s₁, s, hp, he, hrun, hlt, b, hown⟩

/-- The heap's first frame lies under 4 MiB, and the boot window shows it as well. -/
theorem heap_page_not_alone :
    ∃ p s₁ s, pmmInit sampleLayout sampleMap ⟨0x1000, 24⟩ = .ok p ∧
      Call.Allowed (.map apicAddr apicAddr heapFlags) (sampleFrames.start (fun _ _ => 0) p) ∧
      Paging.mapPage (sampleFrames.start (fun _ _ => 0) p).state apicAddr apicAddr heapFlags =
        .ok s₁ ∧
      ReflTransGen Session.Fed (boot (fun _ => 0xAA) s₁ sampleLayout.kernelEnd) s ∧
      (heapStart sampleLayout.kernelEnd ≤ 4096 * 0xC0520 ∧ 4096 * 0xC0520 < s.heap.heapWatermark) ∧
      ∃ b w, w < 2 ^ 20 ∧ w ≠ 0xC0520 ∧ pageFrame s.heap.paging 0xC0520 = some b ∧
        pageFrame s.heap.paging w = some b := by
  obtain ⟨p, s₁, s, hp, hi, ha, he, hrun, hlt, -⟩ := sample_run
  have hstart : heapStart sampleLayout.kernelEnd = 4096 * 0xC0520 := by decide
  rw [hstart] at hlt
  obtain ⟨-, -, hb⟩ := backed_run sampleEntry_ordinary hi (fun _ => 0xAA) (by decide) ha he hrun
  have hmem : 0xC0520 ∈ heapPages (heapStart sampleLayout.kernelEnd) s.heap.heapWatermark := by
    have hal := hb.aligned
    rw [heapPages, Finset.mem_Ico, hstart]
    omega
  obtain ⟨-, b, -, hframe, e, hmem', hram⟩ := hb.frame hmem
  have hlow : b < 1024 := by
    obtain rfl : e = sampleEntry := by simpa using hmem'
    obtain ⟨-, -, hend⟩ := hram
    simp only [sampleEntry] at hend
    omega
  refine ⟨p, s₁, s, hp, ha, he, hrun, ⟨hstart.le, hlt⟩, b, 768 * 1024 + b, by omega, by omega, hframe,
    hb.window b hlow⟩

end Sample

end KallarOS.Heap
