import KallarOS.PagingCalls

namespace KallarOS.Paging
open Pmm ByteMemory

/-- The boot directory and the boot table: two page-aligned frames of the kernel image. -/
structure BootFrames (l : Layout) where
  dir : ℕ
  table : ℕ
  ne : table ≠ dir
  dirStart : l.kernelStart - 0xC0000000 ≤ 4096 * dir
  dirStop : 4096 * (dir + 1) ≤ l.kernelEnd - 0xC0000000
  tableStart : l.kernelStart - 0xC0000000 ≤ 4096 * table
  tableStop : 4096 * (table + 1) ≤ l.kernelEnd - 0xC0000000

inductive Call where
  | map (va physAddr flags : ℕ)
  | alloc (va flags : ℕ)
  | unmap (va : ℕ)
  | free (va : ℕ)
deriving DecidableEq

/-- The machine with the pages whose current mapping was made by `alloc_page`. -/
structure Tracked where
  state : PagingState
  owned : Finset ℕ

namespace Call

def exec : Call → PagingState → Outcome PagingState
  | map va physAddr flags, s => mapPage s va physAddr flags
  | alloc va flags, s => allocPage s va flags
  | unmap va, s => unmapPage s va
  | free va, s => freePage s va

def owned : Call → Finset ℕ → Finset ℕ
  | map va _ _, o => o.erase (page va)
  | alloc va _, o => insert (page va) o
  | unmap va, o => o.erase (page va)
  | free va, o => o.erase (page va)

/-- Addresses below the recursive window, aligned frames, flags with the present
bit, no frame allocation that fails, and `free_page` on owned pages only. -/
def Allowed : Call → Tracked → Prop
  | map va physAddr flags, k => va < 0xFFC00000 ∧ physAddr % 4096 = 0 ∧ flags < 4096 ∧
      Present flags ∧ (Present (k.state.pde (dirIndex va)) ∨ CanAlloc k.state.pmm)
  | alloc va flags, k => va < 0xFFC00000 ∧ flags < 4096 ∧ Present flags ∧
      ∃ addr pmm', pmmAllocFrame k.state.pmm = .ok (addr, pmm') ∧ addr ≠ 0 ∧
        (Present (k.state.pde (dirIndex va)) ∨ CanAlloc pmm')
  | unmap va, _ => va < 0xFFC00000
  | free va, k => va < 0xFFC00000 ∧ page va ∈ k.owned

end Call

/-- One call that returns. -/
inductive Tracked.Step : Tracked → Tracked → Prop where
  | call {k : Tracked} {s' : PagingState} (c : Call) :
      c.Allowed k → c.exec k.state = .ok s' → Step k ⟨s', c.owned k.owned⟩

section Boot

variable {l : Layout} {es : List MmapEntry} {p : PmmState} (f : BootFrames l) (ram : ℕ → ℕ → ℕ)

/-- The machine right after `paging_init`. -/
def BootFrames.start (f : BootFrames l) (ram : ℕ → ℕ → ℕ) (p : PmmState) : Tracked :=
  ⟨pagingInit (bootState f.dir f.table ram p), ∅⟩

theorem BootFrames.pde_start (d : ℕ) :
    (f.start ram p).state.pde d = bootDirectory f.dir f.table d := by
  simp [BootFrames.start, pagingInit, bootState, PagingState.pde]

theorem present_bootDirectory {dir table d : ℕ} :
    Present (bootDirectory dir table d) ↔ d = 768 ∨ d = 1023 := by
  have h3 : (3 : ℕ) % 2 = 1 := by decide
  unfold bootDirectory
  split_ifs with h1 h2
  · simp only [h1, true_or, iff_true]
    exact (present_or (Nat.mul_mod_left _ _) (by decide)).mpr h3
  · simp only [h2, or_true, iff_true]
    exact (present_or (Nat.mul_mod_left _ _) (by decide)).mpr h3
  · simp [h1, h2, Present]

theorem Initialized.not_free (ho : ∀ e ∈ es, e.Ordinary) (h : Initialized l es p) {j : ℕ}
    (hj : l.Protects p.maxBlocks j) : ¬ p.Free j :=
  fun hf => (h.grantable ho hf).unprotected hj

theorem BootFrames.frameOf_image {b : ℕ} (hb : 4096 * (b + 1) ≤ l.kernelEnd - 0xC0000000) :
    frameOf (b * 4096 ||| 3) = b := by
  have hroom := l.room
  have hbeh := l.behind
  rw [frameOf_or (Nat.mul_mod_left _ _) (by decide)]
  omega

/-- The boot table, below the slot of the directory itself. -/
theorem BootFrames.table_start : (f.start ram p).state.table 768 = f.table := by
  rw [PagingState.table, f.pde_start, bootDirectory, if_pos rfl, frameOf_image f.tableStop]

theorem BootFrames.root_start : (f.start ram p).state.table 1023 = f.dir := by
  rw [PagingState.table, f.pde_start, bootDirectory, if_neg (by decide), if_pos rfl,
    frameOf_image f.dirStop]

theorem BootFrames.start_sound (ho : ∀ e ∈ es, e.Ordinary) (h : Initialized l es p) :
    Sound (f.start ram p).state ∅ := by
  have hroom := l.room
  have hbeh := l.behind
  have hd := f.dirStart
  have hd' := f.dirStop
  have ht := f.tableStart
  have ht' := f.tableStop
  have hpde := f.pde_start ram (p := p)
  have htable := f.table_start ram (p := p)
  have h768 : ∀ d < 1023, Present ((f.start ram p).state.pde d) → d = 768 := by
    intro d hd hp
    rw [hpde, present_bootDirectory] at hp
    omega
  refine ⟨rfl, ⟨⟨?_, ?_, ?_⟩, h.padded ho, ?_, ?_, ?_, ?_, ?_, ?_, ?_, ?_⟩,
    ⟨by simp, by simp, by simp, by simp⟩⟩
  · rw [hpde, present_bootDirectory]
    exact .inr rfl
  · exact f.root_start ram
  · intro d hd hp
    obtain rfl := h768 d hd hp
    rw [htable]
    exact f.ne
  · change p.maxBlocks ≤ 2 ^ 20
    rw [h.maxBlocks]
    exact (maxBlocksOf_lt es).le
  · exact Initialized.not_free ho h (.inr (.inr (by unfold Meets; omega)))
  · refine Initialized.not_free ho h (.inl ?_)
    change Meets _ _ f.dir
    unfold Meets
    omega
  · intro d hd hp
    obtain rfl := h768 d hd hp
    rw [htable]
    refine Initialized.not_free ho h (.inl ?_)
    unfold Meets
    omega
  · intro d hd d' hd' hp hp' _
    rw [h768 d hd hp, h768 d' hd' hp']
  · intro d hd hp
    have := h768 d (by omega) hp
    omega
  · intro d hd hp
    have := h768 d (by omega) hp
    omega
  · intro d _ _
    rfl

theorem BootFrames.start_filled : Filled (f.start ram p).state := by
  intro d hd hp
  rw [f.pde_start ram, present_bootDirectory] at hp
  omega

end Boot

section Runs

/-- The state between two calls of a run. -/
structure Tracked.Good (k : Tracked) : Prop where
  sound : Sound k.state k.owned
  filled : Filled k.state

variable {k k' : Tracked}

theorem Tracked.Good.allocPage_returns (h : k.Good) {va flags : ℕ}
    (ha : Call.Allowed (.alloc va flags) k) (hw : walk k.state va = none) :
    ∃ b s', allocPage k.state va flags = .ok s' ∧ Sound s' (insert (page va) k.owned) ∧
      (∃ pde, walk s' va = some (pde, b * 4096 ||| flags)) ∧ SameElsewhere k.state s' va ∧
      Filled s' ∧ (∀ d < 1023, Present (k.state.pde d) → s'.pde d = k.state.pde d) ∧
      k.state.pmm.usedFrames ⊆ s'.pmm.usedFrames := by
  obtain ⟨hva, hfl, hpr, addr, pmm', hok, hne, hnext⟩ := ha
  obtain ⟨b, hb, hok'⟩ := h.sound.tables.canAlloc ⟨addr, pmm', hok, hne⟩
  rw [hok'] at hok
  cases hok
  obtain ⟨s', hs, hsound, hhere, helse, hfill, hkept, hused⟩ :=
    h.sound.allocPage hva hfl hpr hw hb hok' hnext
  exact ⟨b, s', hs, hsound, hhere, helse, hfill h.filled, hkept, hused⟩

/-- `alloc_page` returns only on a page that was not mapped. -/
theorem Sound.walk_none_of_allocPage {s s' : PagingState} {owned : Finset ℕ} {va flags : ℕ}
    (h : Sound s owned) (hva : va < 0xFFC00000) (he : Paging.allocPage s va flags = .ok s') :
    walk s va = none := by
  have hd := dirIndex_lt hva
  rw [Paging.allocPage, if_neg (not_not.mpr h.enabled),
    alreadyMapped_eq h.tables.rooted (by omega : dirIndex va < 1024) (tabIndex_lt va),
    Outcome.ok_bind] at he
  by_cases hc : Present (s.pde (dirIndex va)) ∧ Present (s.pte (dirIndex va) (tabIndex va))
  · rw [decide_eq_true hc, if_pos rfl] at he
    cases he
  · rw [walk, walkAt, if_neg hc]

/-- `unmap_page` returns only when the table is present. -/
theorem Sound.present_of_unmapPage {s s' : PagingState} {owned : Finset ℕ} {va : ℕ}
    (h : Sound s owned) (hva : va < 0xFFC00000) (he : Paging.unmapPage s va = .ok s') :
    Present (s.pde (dirIndex va)) := by
  by_contra hp
  rw [unmapPage_eq h.tables.rooted h.enabled hva, if_neg hp] at he
  cases he

theorem Tracked.Good.step (h : k.Good) (hs : k.Step k') : k'.Good := by
  obtain ⟨c, ha, he⟩ := hs
  cases c with
  | map va physAddr flags =>
    obtain ⟨hva, hpa, hfl, hpr, hal⟩ := ha
    obtain ⟨s', hok, hm⟩ := h.sound.mapPage hva hpa hfl hpr hal
    obtain rfl : s' = _ := Except.ok.inj (hok.symm.trans he)
    exact ⟨hm.sound, hm.filled h.filled⟩
  | alloc va flags =>
    obtain ⟨b, s', hok, hsound, -, -, hfill, -⟩ :=
      h.allocPage_returns ha (h.sound.walk_none_of_allocPage ha.1 he)
    obtain rfl : s' = _ := Except.ok.inj (hok.symm.trans he)
    exact ⟨hsound, hfill⟩
  | unmap va =>
    obtain ⟨s', hok, hu⟩ :=
      h.sound.unmapPage h.filled ha (h.sound.present_of_unmapPage ha he)
    obtain rfl : s' = _ := Except.ok.inj (hok.symm.trans he)
    exact ⟨hu.sound, hu.filled⟩
  | free va =>
    obtain ⟨b, s', -, hok, hu⟩ := h.sound.freePage h.filled ha.1 ha.2
    obtain rfl : s' = _ := Except.ok.inj (hok.symm.trans he)
    exact ⟨hu.sound, hu.filled⟩

theorem Tracked.Good.run (h : k.Good) (hr : Relation.ReflTransGen Tracked.Step k k') : k'.Good := by
  induction hr with
  | refl => exact h
  | tail _ hs ih => exact ih.step hs

/-- A boot with any well-formed memory map starts every run in a good state. -/
theorem BootFrames.start_good {l : Layout} {mem : Mem} {mbd : MultibootInfo} {es : List MmapEntry}
    (hm : MemoryMap mem mbd es) (ho : ∀ e ∈ es, e.Ordinary) (f : BootFrames l) (ram : ℕ → ℕ → ℕ) :
    ∃ p, pmmInit l mem mbd = .ok p ∧ (f.start ram p).Good := by
  obtain ⟨p, hp, hi⟩ := pmmInit_ok l hm ho
  exact ⟨p, hp, f.start_sound ram ho hi, f.start_filled ram⟩

end Runs

section Sample

/-- Directory and table in the middle of the sample kernel image. -/
def sampleFrames : BootFrames sampleLayout where
  dir := 0x110
  table := 0x111
  ne := by decide
  dirStart := by decide
  dirStop := by decide
  tableStart := by decide
  tableStop := by decide

/-- There are frames for a page and for its table. -/
theorem sample_allowed {p : PmmState} (hi : Initialized sampleLayout [sampleEntry] p) {va : ℕ}
    (hva : va < 0xFFC00000) : Call.Allowed (.alloc va 3) (sampleFrames.start (fun _ _ => 0) p) := by
  have htables := (sampleFrames.start_sound (fun _ _ => 0) sampleEntry_ordinary hi).tables
  obtain ⟨h1, h2, -⟩ := sample_free hi
  obtain ⟨b, hb, hok⟩ := htables.canAlloc (htables.canAlloc_of_free h1)
  -- one of the two free frames is left for the table
  have hnext : CanAlloc (p.allotted b) := by
    by_cases hb1 : b = 0x200
    · exact (htables.allot b).canAlloc_of_free (Tables.free_allotted (by omega) h2)
    · exact (htables.allot b).canAlloc_of_free (Tables.free_allotted (Ne.symm hb1) h1)
  have hb0 := (htables.free_apart hb).1
  exact ⟨hva, by decide, by decide, _, _, hok, by omega, .inr hnext⟩

theorem sample_absent (p : PmmState) {va d : ℕ} (hva : dirIndex va = d) (hd : ¬ (d = 768 ∨ d = 1023)) :
    walk (sampleFrames.start (fun _ _ => 0) p).state va = none := by
  have habs : ¬ Present ((sampleFrames.start (fun _ _ => 0) p).state.pde (dirIndex va)) := by
    rw [hva, sampleFrames.pde_start, present_bootDirectory]
    exact hd
  rw [walk, walkAt, if_neg fun hc => habs hc.1]

/-- `alloc_page` makes the page and its table, in which it stands alone, and `free_page`
takes it away. -/
theorem sample_pages : ∃ p s₁ s₂, pmmInit sampleLayout sampleMap ⟨0x1000, 24⟩ = .ok p ∧
    Call.Allowed (.alloc 0x400000 3) (sampleFrames.start (fun _ _ => 0) p) ∧
    allocPage (sampleFrames.start (fun _ _ => 0) p).state 0x400000 3 = .ok s₁ ∧
    (Present (s₁.pde 1) ∧ s₁.entries 1 = {0}) ∧ freePage s₁ 0x400000 = .ok s₂ := by
  obtain ⟨p, hp, hi⟩ := pmmInit_ok sampleLayout sampleMap_wellFormed sampleEntry_ordinary
  have hgood : (sampleFrames.start (fun _ _ => 0) p).Good :=
    ⟨sampleFrames.start_sound _ sampleEntry_ordinary hi, sampleFrames.start_filled _⟩
  have ha : Call.Allowed (.alloc 0x400000 3) _ := sample_allowed hi (by decide)
  obtain ⟨b, s₁, hok, hsound, ⟨pde, hwalk⟩, helse, hfilled, -⟩ :=
    hgood.allocPage_returns ha (sample_absent p rfl (by decide))
  have hpresent : Present (s₁.pde 1) ∧ Present (s₁.pte 1 0) := by
    by_contra hn
    rw [walk, walkAt, if_neg (by exact hn)] at hwalk
    cases hwalk
  have hentries : s₁.entries 1 = {0} := by
    refine Finset.eq_singleton_iff_unique_mem.mpr
      ⟨PagingState.mem_entries.mpr ⟨by decide, hpresent.2⟩, fun e he => ?_⟩
    obtain ⟨hlt, hpte⟩ := PagingState.mem_entries.mp he
    by_contra h0
    -- any other page of the table is as absent as before
    have hd : dirIndex (0x400000 + e * 4096) = 1 := by
      unfold dirIndex
      omega
    have ht : tabIndex (0x400000 + e * 4096) = e := by
      unfold tabIndex
      omega
    have hpage : page (0x400000 + e * 4096) ≠ page 0x400000 := by
      rw [page, hd, ht]
      exact fun hc => h0 (by simpa [page, dirIndex, tabIndex] using hc)
    have hnone := (helse _ (by omega) hpage).trans (sample_absent p hd (by decide))
    rw [walk, walkAt, hd, ht, if_pos ⟨hpresent.1, hpte⟩] at hnone
    cases hnone
  obtain ⟨-, s₂, -, hfree, -⟩ :=
    hsound.freePage hfilled (by decide) (Finset.mem_insert_self _ _)
  exact ⟨p, s₁, s₂, hp, ha, hok, ⟨hpresent.1, hentries⟩, hfree⟩

/-- Remapping the last page of the boot table needs no new frame. -/
theorem sampleFrames_allowed (p : PmmState) :
    Call.Allowed (.map 0xC03FF000 0x5000 3) (sampleFrames.start (fun _ _ => 0) p) := by
  refine ⟨by decide, by decide, by decide, by decide, .inl ?_⟩
  rw [BootFrames.pde_start, present_bootDirectory]
  exact .inl rfl

end Sample

section Results

variable (l : Layout) (mem : Mem) (mbd : MultibootInfo) (es : List MmapEntry)

/-- In every state reached from the boot directory each call changes the
translation of its own page and of no other: the tables behave as a partial map. -/
theorem paging_refines_partial_map (hm : MemoryMap mem mbd es) (ho : ∀ e ∈ es, e.Ordinary)
    (f : BootFrames l) (ram : ℕ → ℕ → ℕ) :
    ∃ p, pmmInit l mem mbd = .ok p ∧
      ∀ k, Relation.ReflTransGen Tracked.Step (f.start ram p) k →
        (∀ va physAddr flags, Call.Allowed (.map va physAddr flags) k →
          ∃ s', mapPage k.state va physAddr flags = .ok s' ∧
            (∃ pde, walk s' va = some (pde, physAddr ||| flags)) ∧ SameElsewhere k.state s' va) ∧
        (∀ va flags, Call.Allowed (.alloc va flags) k → walk k.state va = none →
          ∃ s' frame, allocPage k.state va flags = .ok s' ∧
            (∃ pde, walk s' va = some (pde, frame * 4096 ||| flags)) ∧
            SameElsewhere k.state s' va) ∧
        (∀ va, Call.Allowed (.unmap va) k → Present (k.state.pde (dirIndex va)) →
          ∃ s', unmapPage k.state va = .ok s' ∧ walk s' va = none ∧ SameElsewhere k.state s' va) ∧
        (∀ va, Call.Allowed (.free va) k →
          ∃ s', freePage k.state va = .ok s' ∧ walk s' va = none ∧ SameElsewhere k.state s' va) := by
  obtain ⟨p, hp, hgood⟩ := f.start_good hm ho ram
  refine ⟨p, hp, fun k hr => ?_⟩
  have hk := hgood.run hr
  refine ⟨?_, ?_, ?_, ?_⟩
  · intro va physAddr flags ⟨hva, hpa, hfl, hpr, hal⟩
    obtain ⟨s', hok, hmapped⟩ := hk.sound.mapPage hva hpa hfl hpr hal
    exact ⟨s', hok, hmapped.here, hmapped.elsewhere⟩
  · intro va flags ha hw
    obtain ⟨b, s', hok, -, hhere, helse, -⟩ := hk.allocPage_returns ha hw
    exact ⟨s', b, hok, hhere, helse⟩
  · intro va hva hpr
    obtain ⟨s', hok, hu⟩ := hk.sound.unmapPage hk.filled hva hpr
    exact ⟨s', hok, hu.here, hu.elsewhere⟩
  · intro va ⟨hva, hown⟩
    obtain ⟨b, s', -, hok, hu⟩ := hk.sound.freePage hk.filled hva hown
    exact ⟨s', hok, hu.here, hu.elsewhere⟩

theorem paging_refines_partial_map_sample :
    ∃ p s' pde, pmmInit sampleLayout sampleMap ⟨0x1000, 24⟩ = .ok p ∧
      mapPage (sampleFrames.start (fun _ _ => 0) p).state 0xC03FF000 0x5000 3 = .ok s' ∧
      walk s' 0xC03FF000 = some (pde, 0x5000 ||| 3) := by
  obtain ⟨p, hp, h⟩ := paging_refines_partial_map sampleLayout sampleMap ⟨0x1000, 24⟩ [sampleEntry]
    sampleMap_wellFormed sampleEntry_ordinary sampleFrames fun _ _ => 0
  obtain ⟨s', hs, ⟨pde, hw⟩, -⟩ := (h _ .refl).1 _ _ _ (sampleFrames_allowed p)
  exact ⟨p, s', pde, hp, hs, hw⟩

/-- The call takes the last present entry of table `d`. -/
def Call.Empties (s : PagingState) (d : ℕ) : Call → Prop
  | map .. => False
  | alloc .. => False
  | unmap va => dirIndex va = d ∧ s.entries d = {tabIndex va}
  | free va => dirIndex va = d ∧ s.entries d = {tabIndex va}

/-- The frames the call hands to `pmm_free_frame`: a page's own frame, and the
table's frame with its last entry. -/
def Call.returned (s : PagingState) : Call → Finset ℕ
  | map .. => ∅
  | alloc .. => ∅
  | unmap va => if Last s va then {s.table (dirIndex va)} else ∅
  | free va => (pageFrame s (page va)).toFinset ∪ if Last s va then {s.table (dirIndex va)} else ∅

/-- What becomes of table `d` in one call. -/
structure TableFate (s s' : PagingState) (d : ℕ) (empties : Prop) : Prop where
  returned : s'.pmm.Free (s.table d) ↔ empties
  cleared : empties → s'.pde d = 0 ∧ ∀ i < 1023, Present (s'.pde i) → s'.table i ≠ s.table d
  kept : ¬ empties → s'.pde d = s.pde d

theorem TableFate.of_kept {s s' : PagingState} {owned : Finset ℕ} {d : ℕ} (hs : Sound s' owned)
    (hd : d < 1023) (hp : Present (s.pde d)) (hk : s'.pde d = s.pde d) {empties : Prop}
    (hno : ¬ empties) : TableFate s s' d empties := by
  have ht : s'.table d = s.table d := by rw [PagingState.table, hk, PagingState.table]
  refine ⟨⟨fun hf => ?_, fun he => absurd he hno⟩, fun he => absurd he hno, fun _ => hk⟩
  exact absurd (ht ▸ hf) (hs.tables.used d hd (hk ▸ hp))

theorem TableFate.of_unmapped {s s' : PagingState} {owned : Finset ℕ} {va d : ℕ}
    (hu : Unmapped s s' owned va) (hd : d < 768) (hp : Present (s.pde d)) :
    TableFate s s' d (dirIndex va = d ∧ s.entries d = {tabIndex va}) := by
  by_cases hl : dirIndex va = d ∧ s.entries d = {tabIndex va}
  · obtain ⟨rfl, hent⟩ := hl
    obtain ⟨h0, hfree⟩ := hu.dropped ⟨hd, hent⟩
    refine ⟨⟨fun _ => ⟨rfl, hent⟩, fun _ => hfree⟩, fun _ => ⟨h0, fun i hi hpi he => ?_⟩,
      fun hc => absurd ⟨rfl, hent⟩ hc⟩
    exact hu.sound.tables.used i hi hpi (he ▸ hfree)
  · refine TableFate.of_kept hu.sound (by omega) hp (hu.kept d (by omega) hp ?_) hl
    rintro ⟨rfl, -, hent⟩
    exact hl ⟨rfl, hent⟩

theorem Sound.table_mem_used {s : PagingState} {owned : Finset ℕ} (h : Sound s owned) {d : ℕ}
    (hd : d < 768) (hp : Present (s.pde d)) : s.table d ∈ s.pmm.usedFrames := by
  have hlt := (h.tables.low d hd hp).2
  refine PmmState.mem_usedFrames.mpr ⟨hlt, ?_⟩
  by_contra hb
  exact h.tables.used d (by omega) hp ⟨hlt, by simpa using hb⟩

theorem sdiff_erase {α : Type*} [DecidableEq α] {u : Finset α} {a : α} (h : a ∈ u) :
    u \ u.erase a = {a} := by
  rw [Finset.sdiff_erase h, Finset.sdiff_self]
  rfl

/-- A successful call frees exactly its `returned` frames. -/
theorem Tracked.Good.frames {k : Tracked} (h : k.Good) {c : Call} {s' : PagingState}
    (ha : c.Allowed k) (he : c.exec k.state = .ok s') :
    k.state.pmm.usedFrames \ s'.pmm.usedFrames = c.returned k.state := by
  cases c with
  | map va physAddr flags =>
    obtain ⟨hva, hpa, hfl, hpr, hal⟩ := ha
    obtain ⟨_, hok, hm⟩ := h.sound.mapPage hva hpa hfl hpr hal
    cases Except.ok.inj (hok.symm.trans he)
    exact Finset.sdiff_eq_empty_iff_subset.mpr hm.frames
  | alloc va flags =>
    obtain ⟨b, _, hok, -, -, -, -, -, hused⟩ :=
      h.allocPage_returns ha (h.sound.walk_none_of_allocPage ha.1 he)
    cases Except.ok.inj (hok.symm.trans he)
    exact Finset.sdiff_eq_empty_iff_subset.mpr hused
  | unmap va =>
    have hp := h.sound.present_of_unmapPage ha he
    obtain ⟨_, hok, hu⟩ := h.sound.unmapPage h.filled ha hp
    cases Except.ok.inj (hok.symm.trans he)
    rw [hu.frames, Call.returned]
    split_ifs with hl
    · exact sdiff_erase (h.sound.table_mem_used hl.1 hp)
    · exact Finset.sdiff_self _
  | free va =>
    obtain ⟨b, _, hb, hok, hu⟩ := h.sound.freePage h.filled ha.1 ha.2
    cases Except.ok.inj (hok.symm.trans he)
    have hap := h.sound.owns.apart _ ha.2 b hb
    have hbu : b ∈ k.state.pmm.usedFrames := PmmState.mem_usedFrames.mpr ⟨hap.lt, hap.used⟩
    have hlast : Last (k.state.withPmm (k.state.pmm.release b)) va ↔ Last k.state va := Iff.rfl
    have hrel := usedFrames_release k.state.pmm b
    rw [hu.frames, Call.returned, hb, PagingState.pmm_withPmm, hrel]
    by_cases hl : Last k.state va
    · have ht := h.sound.table_mem_used hl.1 (present_of_pageFrame hb).1
      rw [if_pos (hlast.mpr hl), if_pos hl]
      ext x
      change x ∈ _ \ (k.state.pmm.usedFrames.erase b).erase (k.state.table (dirIndex va)) ↔ _
      simp only [Finset.mem_sdiff, Finset.mem_erase, Finset.mem_union, Option.mem_toFinset,
        Option.mem_some_iff, Finset.mem_singleton, not_and]
      constructor
      · rintro ⟨hx, hn⟩
        by_contra hc
        push Not at hc
        exact hn hc.2 (fun hxb => hc.1 hxb.symm) hx
      · rintro (rfl | rfl)
        · exact ⟨hbu, fun _ hn => absurd rfl hn⟩
        · exact ⟨ht, fun hn => absurd rfl hn⟩
    · rw [if_neg fun hc => hl (hlast.mp hc), if_neg hl, sdiff_erase hbu, Finset.union_empty]
      rfl

/-- The reference counters are exact after every call, and a table's frame goes
back to the allocator with its last present entry and not before. -/
theorem reference_counts_exact (hm : MemoryMap mem mbd es) (ho : ∀ e ∈ es, e.Ordinary)
    (f : BootFrames l) (ram : ℕ → ℕ → ℕ) :
    ∃ p, pmmInit l mem mbd = .ok p ∧
      ∀ k, Relation.ReflTransGen Tracked.Step (f.start ram p) k →
        (∀ d < 768, (Present (k.state.pde d) ↔ 0 < k.state.refCounter d) ∧
          (Present (k.state.pde d) → k.state.refCounter d = (k.state.entries d).card ∧
            k.state.refCounter d ≤ 1024)) ∧
        ∀ c s', Call.Allowed c k → c.exec k.state = .ok s' →
          k.state.pmm.usedFrames \ s'.pmm.usedFrames = c.returned k.state ∧
          ∀ d < 768, Present (k.state.pde d) →
            TableFate k.state s' d (c.Empties k.state d) := by
  obtain ⟨p, hp, hgood⟩ := f.start_good hm ho ram
  refine ⟨p, hp, fun k hr => ?_⟩
  have hk := hgood.run hr
  refine ⟨fun d hd => ⟨⟨fun hpr => ?_, fun hpos => ?_⟩, fun hpr => ?_⟩, fun c s' ha he => ?_⟩
  · rw [hk.sound.tables.counted d hd hpr]
    exact Finset.card_pos.mpr (hk.filled d hd hpr)
  · by_contra hn
    rw [hk.sound.tables.uncounted d hd hn] at hpos
    exact Nat.lt_irrefl 0 hpos
  · have hc := hk.sound.tables.counted d hd hpr
    exact ⟨hc, hc ▸ k.state.card_entries_le d⟩
  · refine ⟨hk.frames ha he, fun d hd hpr => ?_⟩
    cases c with
    | map va physAddr flags =>
      obtain ⟨hva, hpa, hfl, hfp, hal⟩ := ha
      obtain ⟨_, hok, hmapped⟩ := hk.sound.mapPage hva hpa hfl hfp hal
      cases Except.ok.inj (hok.symm.trans he)
      exact TableFate.of_kept hmapped.sound (by omega) hpr (hmapped.kept d (by omega) hpr) not_false
    | alloc va flags =>
      obtain ⟨b, _, hok, hsound, -, -, -, hkept, -⟩ :=
        hk.allocPage_returns ha (hk.sound.walk_none_of_allocPage ha.1 he)
      cases Except.ok.inj (hok.symm.trans he)
      exact TableFate.of_kept hsound (by omega) hpr (hkept d (by omega) hpr) not_false
    | unmap va =>
      obtain ⟨_, hok, hu⟩ :=
        hk.sound.unmapPage hk.filled ha (hk.sound.present_of_unmapPage ha he)
      cases Except.ok.inj (hok.symm.trans he)
      exact TableFate.of_unmapped hu hd hpr
    | free va =>
      obtain ⟨b, _, -, hok, hu⟩ := hk.sound.freePage hk.filled ha.1 ha.2
      cases Except.ok.inj (hok.symm.trans he)
      have hfate := TableFate.of_unmapped hu hd hpr
      exact ⟨hfate.returned, hfate.cleared, hfate.kept⟩

/-- A table is made for one page, and goes with it. -/
theorem reference_counts_exact_sample :
    ∃ p s₁ s₂, pmmInit sampleLayout sampleMap ⟨0x1000, 24⟩ = .ok p ∧
      allocPage (sampleFrames.start (fun _ _ => 0) p).state 0x400000 3 = .ok s₁ ∧
      Present (s₁.pde 1) ∧ s₁.refCounter 1 = 1 ∧ freePage s₁ 0x400000 = .ok s₂ ∧
      s₂.pde 1 = 0 ∧ s₂.pmm.Free (s₁.table 1) := by
  obtain ⟨p, hp, h⟩ := reference_counts_exact sampleLayout sampleMap ⟨0x1000, 24⟩ [sampleEntry]
    sampleMap_wellFormed sampleEntry_ordinary sampleFrames fun _ _ => 0
  obtain ⟨p', s₁, s₂, hp', ha, hok, ⟨hpresent, hentries⟩, hfree⟩ := sample_pages
  cases hp.symm.trans hp'
  obtain ⟨hcounts, hfates⟩ := h _ (.single (.call _ ha hok))
  have hcount := ((hcounts 1 (by decide)).2 hpresent).1
  have hfate := (hfates (.free 0x400000) s₂ ⟨by decide, Finset.mem_insert_self _ _⟩ hfree).2 1
    (by decide) hpresent
  have hempties : Call.Empties s₁ 1 (.free 0x400000) := ⟨by decide, hentries⟩
  rw [hentries, Finset.card_singleton] at hcount
  exact ⟨p, s₁, s₂, hp, hok, hpresent, hcount, hfree, (hfate.cleared hempties).1,
    hfate.returned.mpr hempties⟩

end Results

end KallarOS.Paging
