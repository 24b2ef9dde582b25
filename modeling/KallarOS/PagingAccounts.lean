import KallarOS.PagingRuns

namespace KallarOS

/-- `used` is the disjoint union of three parts. -/
structure Parts {α : Type*} [DecidableEq α] (boot pages tables used : Finset α) : Prop where
  union : used = boot ∪ pages ∪ tables
  boot_pages : Disjoint boot pages
  boot_tables : Disjoint boot tables
  pages_tables : Disjoint pages tables

namespace Parts

variable {α : Type*} [DecidableEq α] {boot pages tables used : Finset α} {b : α}

theorem mem_iff (h : Parts boot pages tables used) :
    b ∈ used ↔ b ∈ boot ∨ b ∈ pages ∨ b ∈ tables := by
  rw [h.union, Finset.mem_union, Finset.mem_union, or_assoc]

theorem addPage (h : Parts boot pages tables used) (hb : b ∉ used) :
    Parts boot (insert b pages) tables (insert b used) := by
  rw [h.mem_iff, not_or, not_or] at hb
  refine ⟨?_, ?_, h.boot_tables, ?_⟩
  · rw [h.union, Finset.union_insert, Finset.insert_union]
  · exact Finset.disjoint_insert_right.mpr ⟨hb.1, h.boot_pages⟩
  · exact Finset.disjoint_insert_left.mpr ⟨hb.2.2, h.pages_tables⟩

theorem addTable (h : Parts boot pages tables used) (hb : b ∉ used) :
    Parts boot pages (insert b tables) (insert b used) := by
  rw [h.mem_iff, not_or, not_or] at hb
  refine ⟨?_, h.boot_pages, ?_, ?_⟩
  · rw [h.union, Finset.union_insert]
  · exact Finset.disjoint_insert_right.mpr ⟨hb.1, h.boot_tables⟩
  · exact Finset.disjoint_insert_right.mpr ⟨hb.2.1, h.pages_tables⟩

theorem dropPage (h : Parts boot pages tables used) (hb : b ∈ pages) :
    Parts boot (pages.erase b) tables (used.erase b) := by
  have hboot : b ∉ boot := Finset.disjoint_right.mp h.boot_pages hb
  have htables : b ∉ tables := Finset.disjoint_left.mp h.pages_tables hb
  refine ⟨?_, ?_, h.boot_tables, ?_⟩
  · rw [h.union, Finset.erase_union_distrib, Finset.erase_union_distrib,
      Finset.erase_eq_of_notMem hboot, Finset.erase_eq_of_notMem htables]
  · exact h.boot_pages.mono_right (Finset.erase_subset b pages)
  · exact h.pages_tables.mono_left (Finset.erase_subset b pages)

theorem dropTable (h : Parts boot pages tables used) (hb : b ∈ tables) :
    Parts boot pages (tables.erase b) (used.erase b) := by
  have hboot : b ∉ boot := Finset.disjoint_right.mp h.boot_tables hb
  have hpages : b ∉ pages := Finset.disjoint_right.mp h.pages_tables hb
  refine ⟨?_, h.boot_pages, ?_, ?_⟩
  · rw [h.union, Finset.erase_union_distrib, Finset.erase_union_distrib,
      Finset.erase_eq_of_notMem hboot, Finset.erase_eq_of_notMem hpages]
  · exact h.boot_tables.mono_right (Finset.erase_subset b tables)
  · exact h.pages_tables.mono_right (Finset.erase_subset b tables)

end Parts

namespace Paging
open Pmm ByteMemory

section Frames

variable {s s' : PagingState} {owned : Finset ℕ} {va physAddr flags v b : ℕ}

/-- The frames behind the pages in `owned`. -/
def pageFrames (s : PagingState) (owned : Finset ℕ) : Finset ℕ :=
  owned.biUnion fun v => (pageFrame s v).toFinset

/-- The directory entries whose table was made after boot. -/
def newSlots (s : PagingState) : Finset ℕ := {d ∈ Finset.range 1023 | d ≠ 768 ∧ Present (s.pde d)}

def tableFrames (s : PagingState) : Finset ℕ := (newSlots s).image s.table

theorem mem_pageFrames : b ∈ pageFrames s owned ↔ ∃ v ∈ owned, pageFrame s v = some b := by
  simp [pageFrames]

theorem mem_newSlots {d : ℕ} : d ∈ newSlots s ↔ d < 1023 ∧ d ≠ 768 ∧ Present (s.pde d) := by
  simp [newSlots]

theorem pageFrame_page (s : PagingState) (va : ℕ) :
    pageFrame s (page va) = (walk s va).map fun w => frameOf w.2 := by
  rw [pageFrame, page_div, page_mod]
  rfl

theorem SameElsewhere.pageFrame_eq (h : SameElsewhere s s' va) (hv : v / 1024 < 1023)
    (hne : v ≠ page va) : pageFrame s' v = pageFrame s v := by
  have hpage : page (4096 * v) = v := by rw [page_eq_div]; omega
  have hw := h (4096 * v) (by omega) (by rw [hpage]; exact hne)
  rw [← hpage, pageFrame_page, pageFrame_page, hw]

/-- A change outside the pages of `owned` leaves their frames alone. -/
theorem SameElsewhere.pageFrames_eq (h : SameElsewhere s s' va) (hs : ∀ v ∈ owned, v / 1024 < 1023)
    (hva : page va ∉ owned) : pageFrames s' owned = pageFrames s owned := by
  refine Finset.biUnion_congr rfl ?_
  intro v hv
  rw [h.pageFrame_eq (hs v hv) fun he => hva (he ▸ hv)]

theorem Sound.notMem_owned (h : Sound s owned) (hw : walk s va = none) : page va ∉ owned := by
  intro hm
  obtain ⟨f, hf⟩ := h.owns.mapped _ hm
  rw [pageFrame_page, hw] at hf
  exact Option.some_ne_none f hf.symm

theorem tableFrames_congr (h : ∀ d < 1023, s'.pde d = s.pde d) : tableFrames s' = tableFrames s := by
  have hslots : newSlots s' = newSlots s := by
    ext d
    rw [mem_newSlots, mem_newSlots]
    refine and_congr_right fun hd => ?_
    rw [h d hd]
  rw [tableFrames, tableFrames, hslots]
  refine Finset.image_congr ?_
  intro d hd
  rw [PagingState.table, h d (mem_newSlots.mp hd).1, PagingState.table]

theorem tableFrames_add {d : ℕ} (hd : d < 1023) (h768 : d ≠ 768) (hp : Present (s'.pde d))
    (h : ∀ i < 1023, i ≠ d → s'.pde i = s.pde i) (hn : ¬ Present (s.pde d)) :
    tableFrames s' = insert (s'.table d) (tableFrames s) := by
  have hslots : newSlots s' = insert d (newSlots s) := by
    ext i
    rw [Finset.mem_insert, mem_newSlots, mem_newSlots]
    by_cases hi : i = d
    · simp [hi, hd, h768, hp]
    · simp only [hi, false_or]
      refine and_congr_right fun hlt => ?_
      rw [h i hlt hi]
  rw [tableFrames, tableFrames, hslots, Finset.image_insert]
  refine congrArg (insert _) (Finset.image_congr ?_)
  intro i hi
  obtain ⟨hlt, -, hpi⟩ := mem_newSlots.mp hi
  have hne : i ≠ d := fun he => hn (he ▸ hpi)
  rw [PagingState.table, h i hlt hne, PagingState.table]

theorem tableFrames_drop {d : ℕ} (ht : Tables s) (hd : d < 1023) (hp : Present (s.pde d))
    (h : ∀ i < 1023, i ≠ d → s'.pde i = s.pde i) (hn : ¬ Present (s'.pde d)) :
    tableFrames s' = (tableFrames s).erase (s.table d) := by
  ext b
  simp only [tableFrames, Finset.mem_erase, Finset.mem_image, mem_newSlots]
  constructor
  · rintro ⟨i, ⟨hlt, h768, hpi⟩, rfl⟩
    have hne : i ≠ d := fun he => hn (he ▸ hpi)
    have htab : s'.table i = s.table i := by
      rw [PagingState.table, h i hlt hne, PagingState.table]
    rw [h i hlt hne] at hpi
    rw [htab]
    exact ⟨fun he => hne (ht.inj i hlt d hd hpi hp he), i, ⟨hlt, h768, hpi⟩, rfl⟩
  · rintro ⟨hb, i, ⟨hlt, h768, hpi⟩, rfl⟩
    have hne : i ≠ d := fun he => hb (he ▸ rfl)
    refine ⟨i, ⟨hlt, h768, ?_⟩, ?_⟩
    · rwa [h i hlt hne]
    · rw [PagingState.table, h i hlt hne, PagingState.table]

theorem usedFrames_allotted (p : PmmState) (hb : b < p.maxBlocks) :
    (p.allotted b).usedFrames = insert b p.usedFrames := usedFrames_take hb

theorem notMem_usedFrames {p : PmmState} (hb : p.Free b) : b ∉ p.usedFrames := by
  intro hm
  have hbit := (PmmState.mem_usedFrames.mp hm).2
  rw [hb.2] at hbit
  exact Bool.noConfusion hbit

/-- What a successful `map_page` takes: nothing, or one frame for a new table. -/
structure Takes (s s' : PagingState) (d : ℕ) : Prop where
  old : Present (s.pde d) → s'.pmm.usedFrames = s.pmm.usedFrames ∧ ∀ i < 1023, s'.pde i = s.pde i
  new : ¬ Present (s.pde d) → s.pmm.Free (s'.table d) ∧ Present (s'.pde d) ∧
    s'.pmm.usedFrames = insert (s'.table d) s.pmm.usedFrames ∧
    ∀ i < 1023, i ≠ d → s'.pde i = s.pde i

/-- What `map_page` does to the directory: nothing, or one entry for a new table. -/
theorem Sound.mapPage_cases (h : Sound s owned) (hva : va < 0xFFC00000)
    (ha : Present (s.pde (dirIndex va)) ∨ CanAlloc s.pmm)
    (he : Paging.mapPage s va physAddr flags = .ok s') :
    (Present (s.pde (dirIndex va)) ∧ s'.pmm = s.pmm ∧ ∀ i, s'.pde i = s.pde i) ∨
      ∃ b, ¬ Present (s.pde (dirIndex va)) ∧ s.pmm.Free b ∧ s'.pmm = s.pmm.allotted b ∧
        frameOf (b * 4096 ||| dirFlags flags) = b ∧ Present (b * 4096 ||| dirFlags flags) ∧
        ∀ i, s'.pde i = if i = dirIndex va then b * 4096 ||| dirFlags flags else s.pde i := by
  have hd := dirIndex_lt hva
  have ht := tabIndex_lt va
  rw [Paging.mapPage, if_pos h.enabled] at he
  by_cases hp : Present (s.pde (dirIndex va))
  · have hap := h.tables.rooted.apart _ hd hp
    rw [mapPageEnabled_present h.tables.rooted (by omega) ht hp] at he
    cases he
    exact .inl ⟨hp, pmm_putEntry, pde_putEntry hap⟩
  · obtain ⟨b, hb, hok⟩ := h.tables.canAlloc (ha.resolve_left hp)
    obtain ⟨hs₁, hb₁⟩ := h.allot hb
    have hfr := hb₁.frameOf_or hs₁.tables (dirFlags_lt flags)
    have hpe : Present (b * 4096 ||| dirFlags flags) :=
      (present_or (Nat.mul_mod_left b 4096) (dirFlags_lt flags)).mpr (dirFlags_present flags)
    have hroot : frameOf (b * 4096 ||| dirFlags flags) ≠ s.cr3 := by
      rw [hfr]
      exact hb₁.apart.root
    rw [mapPageEnabled_absent h.tables.rooted hd ht hp hok hpe hroot] at he
    cases he
    have hpde : ∀ i, ((s.withPmm (s.pmm.allotted b)).addTable (dirIndex va)
        (b * 4096 ||| dirFlags flags)).pde i =
          if i = dirIndex va then b * 4096 ||| dirFlags flags else s.pde i :=
      fun i => pde_addTable hroot i
    have hap : ((s.withPmm (s.pmm.allotted b)).addTable (dirIndex va)
        (b * 4096 ||| dirFlags flags)).table (dirIndex va) ≠ s.cr3 := by
      rw [PagingState.table, hpde, if_pos rfl]
      exact hroot
    refine .inr ⟨b, hp, hb, ?_, hfr, hpe, ?_⟩
    · rw [pmm_putEntry]
      rfl
    · intro i
      rw [pde_putEntry hap, hpde]

theorem Sound.mapPage_takes (h : Sound s owned) (hva : va < 0xFFC00000)
    (ha : Present (s.pde (dirIndex va)) ∨ CanAlloc s.pmm)
    (he : Paging.mapPage s va physAddr flags = .ok s') : Takes s s' (dirIndex va) := by
  rcases h.mapPage_cases hva ha he with ⟨hp, hpmm, hpde⟩ | ⟨b, hp, hb, hpmm, hfr, hpe, hpde⟩
  · exact ⟨fun _ => ⟨by rw [hpmm], fun i _ => hpde i⟩, fun hn => absurd hp hn⟩
  · have hnew := hpde (dirIndex va)
    rw [if_pos rfl] at hnew
    have htab : s'.table (dirIndex va) = b := by rw [PagingState.table, hnew, hfr]
    refine ⟨fun hc => absurd hc hp, fun _ => ⟨?_, ?_, ?_, ?_⟩⟩
    · rw [htab]
      exact hb
    · rw [hnew]
      exact hpe
    · rw [htab, hpmm]
      exact usedFrames_allotted s.pmm hb.1
    · intro i _ hi
      rw [hpde, if_neg hi]

end Frames

section Accounts

variable {boot : Finset ℕ} {s s' : PagingState} {owned : Finset ℕ} {va physAddr flags b : ℕ}

/-- The used frames are those of the boot, of the owned pages and of the new tables. -/
def Accounts (boot : Finset ℕ) (s : PagingState) (owned : Finset ℕ) : Prop :=
  Parts boot (pageFrames s owned) (tableFrames s) s.pmm.usedFrames

/-- The tables after a `map_page`, for any account of the pages. -/
theorem Takes.parts {pages : Finset ℕ} (h : Takes s s' (dirIndex va)) (hva : va < 0xFFC00000)
    (h768 : dirIndex va ≠ 768) (hp : Parts boot pages (tableFrames s) s.pmm.usedFrames) :
    Parts boot pages (tableFrames s') s'.pmm.usedFrames := by
  by_cases hd : Present (s.pde (dirIndex va))
  · obtain ⟨hused, hpde⟩ := h.old hd
    rw [hused, tableFrames_congr hpde]
    exact hp
  · obtain ⟨hfree, hnew, hused, hpde⟩ := h.new hd
    rw [hused, tableFrames_add (dirIndex_lt hva) h768 hnew hpde hd]
    exact hp.addTable (notMem_usedFrames hfree)

theorem Accounts.mapPage (h : Accounts boot s owned) (hs : Sound s owned) (hva : va < 0xFFC00000)
    (h768 : dirIndex va ≠ 768) (hw : walk s va = none) (helse : SameElsewhere s s' va)
    (htake : Takes s s' (dirIndex va)) : Accounts boot s' (owned.erase (page va)) := by
  have hno := hs.notMem_owned hw
  rw [Finset.erase_eq_of_notMem hno, Accounts, helse.pageFrames_eq hs.owns.small hno]
  exact htake.parts hva h768 h

/-- `alloc_page` adds its own frame to the pages, and a table frame if it needs one. -/
theorem Accounts.allocPage (h : Accounts boot s owned) (hs : Sound s owned) (hva : va < 0xFFC00000)
    (h768 : dirIndex va ≠ 768) (hw : walk s va = none) (hb : s.pmm.Free b)
    (helse : SameElsewhere s s' va) (hhere : pageFrame s' (page va) = some b)
    (htake : Takes (s.withPmm (s.pmm.allotted b)) s' (dirIndex va)) :
    Accounts boot s' (insert (page va) owned) := by
  have hno := hs.notMem_owned hw
  have hpages : pageFrames s' (insert (page va) owned) = insert b (pageFrames s owned) := by
    rw [← helse.pageFrames_eq hs.owns.small hno, pageFrames, Finset.biUnion_insert, hhere]
    rfl
  rw [Accounts, hpages]
  refine htake.parts hva h768 ?_
  rw [PagingState.pmm_withPmm, usedFrames_allotted s.pmm hb.1]
  exact Parts.addPage h (notMem_usedFrames hb)

theorem pde_dropTable {d i : ℕ} (hr : Rooted s) (hd : d < 1024)
    (he : Paging.dropTable s d = .ok s') (hi : i ≠ d) : s'.pde i = s.pde i := by
  rw [dropTable_eq hr hd] at he
  split_ifs at he
  · obtain ⟨pmm, -, he⟩ := Outcome.bind_eq_ok.mp he
    cases he
    rw [s.pde_clearDir, if_neg hi]
  · cases he
    rfl

/-- `unmap_page` leaves the other directory entries alone. -/
theorem Sound.pde_unmapPage {i : ℕ} (h : Sound s owned) (hva : va < 0xFFC00000)
    (hp : Present (s.pde (dirIndex va))) (he : Paging.unmapPage s va = .ok s')
    (hi : i ≠ dirIndex va) : s'.pde i = s.pde i := by
  have hd := dirIndex_lt hva
  have hap := h.tables.rooted.apart _ hd hp
  rw [unmapPage_eq h.tables.rooted h.enabled hva, if_pos hp] at he
  split_ifs at he with hpt
  · have hr := (h.tables.removeEntry hd (tabIndex_lt va) hp hpt).rooted
    rw [pde_dropTable hr (by omega) he hi, pde_removeEntry hap]
  · exact pde_dropTable h.tables.rooted (by omega) he hi

/-- The tables after an `unmap_page`, for any account of the pages. -/
theorem Unmapped.parts {pages : Finset ℕ} (hu : Unmapped s s' owned va) (ht : Tables s)
    (hva : va < 0xFFC00000) (hp : Present (s.pde (dirIndex va)))
    (hpde : ∀ i < 1023, i ≠ dirIndex va → s'.pde i = s.pde i)
    (h : Parts boot pages (tableFrames s) s.pmm.usedFrames) :
    Parts boot pages (tableFrames s') s'.pmm.usedFrames := by
  have hd := dirIndex_lt hva
  rw [hu.frames]
  by_cases hl : Last s va
  · obtain ⟨hzero, -⟩ := hu.dropped hl
    have habs : ¬ Present (s'.pde (dirIndex va)) := by
      rw [hzero]
      decide
    -- only tables below index 768 are dropped, so this one was made after boot
    have hslot : dirIndex va ∈ newSlots s := mem_newSlots.mpr ⟨hd, by have := hl.1; omega, hp⟩
    rw [if_pos hl, tableFrames_drop ht hd hp hpde habs]
    exact h.dropTable (Finset.mem_image_of_mem _ hslot)
  · have hkept : s'.pde (dirIndex va) = s.pde (dirIndex va) :=
      hu.kept _ hd hp fun hc => hl hc.2
    rw [if_neg hl, tableFrames_congr]
    · exact h
    · intro i hi
      by_cases hid : i = dirIndex va
      · rw [hid, hkept]
      · exact hpde i hi hid

theorem Sound.pageFrames_erase (h : Sound s owned) (helse : SameElsewhere s s' va)
    (hown : page va ∈ owned) (hb : pageFrame s (page va) = some b) :
    pageFrames s' (owned.erase (page va)) = (pageFrames s owned).erase b := by
  ext c
  rw [Finset.mem_erase, mem_pageFrames, mem_pageFrames]
  constructor
  · rintro ⟨v, hv, hf⟩
    obtain ⟨hne, hv⟩ := Finset.mem_erase.mp hv
    rw [helse.pageFrame_eq (h.owns.small v hv) hne] at hf
    -- `b` was behind this one owned page only
    refine ⟨?_, v, hv, hf⟩
    rintro rfl
    exact hne (h.owns.inj v hv _ hown c hf hb)
  · rintro ⟨hcb, v, hv, hf⟩
    have hne : v ≠ page va := by
      rintro rfl
      rw [hb] at hf
      exact hcb (Option.some.inj hf).symm
    refine ⟨v, Finset.mem_erase.mpr ⟨hne, hv⟩, ?_⟩
    rw [helse.pageFrame_eq (h.owns.small v hv) hne, hf]

theorem Accounts.freePage (h : Accounts boot s owned) (hs : Sound s owned) (hva : va < 0xFFC00000)
    (hown : page va ∈ owned) (hb : pageFrame s (page va) = some b)
    (hun : Paging.unmapPage (s.withPmm (s.pmm.release b)) va = .ok s')
    (hu : Unmapped (s.withPmm (s.pmm.release b)) s' (owned.erase (page va)) va) :
    Accounts boot s' (owned.erase (page va)) := by
  have hrel := hs.release hown hb
  have hp := hrel.present_of_unmapPage hva hun
  have hpages := hs.pageFrames_erase hu.elsewhere hown hb
  rw [Accounts, hpages]
  refine hu.parts hrel.tables hva hp ?_ ?_
  · intro i _ hi
    exact hrel.pde_unmapPage hva hp hun hi
  · have hmem : b ∈ pageFrames s owned := mem_pageFrames.mpr ⟨page va, hown, hb⟩
    rw [PagingState.pmm_withPmm, usedFrames_release]
    exact Parts.dropPage h hmem

end Accounts

section Runs

/-- The calls of a kernel that frees only what it got from `alloc_page` and maps by
hand only frames the allocator knows nothing of, at addresses that are not mapped. -/
def Call.Orderly : Call → Tracked → Prop
  | map va physAddr _, k => dirIndex va ≠ 768 ∧ walk k.state va = none ∧
      k.state.pmm.maxBlocks ≤ physAddr / 4096
  | alloc va _, _ => dirIndex va ≠ 768
  | unmap _, _ => False
  | free va, _ => dirIndex va ≠ 768

inductive Tracked.OrderlyStep : Tracked → Tracked → Prop where
  | call {k : Tracked} {s' : PagingState} (c : Call) :
      c.Allowed k → c.Orderly k → c.exec k.state = .ok s' → OrderlyStep k ⟨s', c.owned k.owned⟩

theorem Tracked.OrderlyStep.step {k k' : Tracked} (h : k.OrderlyStep k') : k.Step k' := by
  obtain ⟨c, ha, -, he⟩ := h
  exact ⟨c, ha, he⟩

theorem Tracked.Good.accounts {boot : Finset ℕ} {k k' : Tracked} (h : k.Good)
    (hacc : Accounts boot k.state k.owned) (hs : k.OrderlyStep k') :
    Accounts boot k'.state k'.owned := by
  obtain ⟨c, ha, ho, he⟩ := hs
  have hsound := h.sound
  cases c with
  | map va physAddr flags =>
    obtain ⟨hva, hpa, hfl, hpr, hal⟩ := ha
    obtain ⟨h768, hw, -⟩ := ho
    obtain ⟨s', hok, hm⟩ := hsound.mapPage hva hpa hfl hpr hal
    cases Except.ok.inj (hok.symm.trans he)
    exact hacc.mapPage hsound hva h768 hw hm.elsewhere (hsound.mapPage_takes hva hal hok)
  | alloc va flags =>
    obtain ⟨hva, hfl, hpr, addr, pmm', hok, hne, hnext⟩ := ha
    have hw := hsound.walk_none_of_allocPage hva he
    obtain ⟨b, hb, hok'⟩ := hsound.tables.canAlloc ⟨addr, pmm', hok, hne⟩
    cases hok'.symm.trans hok
    obtain ⟨hs₁, hb₁⟩ := hsound.allot hb
    obtain ⟨s', hmap, hm⟩ := hs₁.mapPage hva (Nat.mul_mod_left b 4096) hfl hpr hnext
    obtain ⟨pde, hhere⟩ := hm.here
    have hframe : pageFrame s' (page va) = some b := by
      rw [pageFrame_page, hhere, Option.map_some, hb₁.frameOf_or hs₁.tables hfl]
    cases Except.ok.inj (((hsound.allocPage_eq hva hw hb hok').trans hmap).symm.trans he)
    exact hacc.allocPage hsound hva ho hw hb hm.elsewhere hframe
      (hs₁.mapPage_takes hva hnext hmap)
  -- an unmapped page would leave its frame in no account
  | unmap va => exact ho.elim
  | free va =>
    obtain ⟨hva, hown⟩ := ha
    obtain ⟨b, hb⟩ := hsound.owns.mapped _ hown
    have hrel := hsound.release hown hb
    obtain ⟨s', hun, hu⟩ := hrel.unmapPage h.filled hva (present_of_pageFrame hb).1
    rw [Finset.erase_idem] at hu
    cases Except.ok.inj (((hsound.freePage_eq hva hown hb).trans hun).symm.trans he)
    exact hacc.freePage hsound hva hown hb hun hu

theorem Tracked.Good.accounts_run {boot : Finset ℕ} {k k' : Tracked} (h : k.Good)
    (hacc : Accounts boot k.state k.owned) (hr : Relation.ReflTransGen Tracked.OrderlyStep k k') :
    k'.Good ∧ Accounts boot k'.state k'.owned := by
  induction hr with
  | refl => exact ⟨h, hacc⟩
  | tail _ hs ih => exact ⟨ih.1.step hs.step, ih.1.accounts ih.2 hs⟩

theorem BootFrames.start_accounts {l : Layout} (f : BootFrames l) (ram : ℕ → ℕ → ℕ) (p : PmmState) :
    Accounts p.usedFrames (f.start ram p).state ∅ := by
  have hslots : newSlots (f.start ram p).state = ∅ := by
    ext d
    rw [mem_newSlots, f.pde_start ram, present_bootDirectory]
    simp only [Finset.notMem_empty, iff_false]
    omega
  have hpages : pageFrames (f.start ram p).state ∅ = ∅ := Finset.biUnion_empty
  have htables : tableFrames (f.start ram p).state = ∅ := by
    rw [tableFrames, hslots, Finset.image_empty]
  rw [Accounts, hpages, htables]
  refine ⟨?_, Finset.disjoint_empty_right _, Finset.disjoint_empty_right _,
    Finset.disjoint_empty_right _⟩
  rw [Finset.union_empty, Finset.union_empty]
  rfl

/-- After every call the used frames are the boot frames, one frame for each page that
`alloc_page` maps and one for each table made since boot, and no two of these are one. -/
theorem frames_accounted (l : Layout) (mem : Mem) (mbd : MultibootInfo) (es : List MmapEntry)
    (hm : MemoryMap mem mbd es) (ho : ∀ e ∈ es, e.Ordinary) (f : BootFrames l) (ram : ℕ → ℕ → ℕ) :
    ∃ p, pmmInit l mem mbd = .ok p ∧
      ∀ k, Relation.ReflTransGen Tracked.OrderlyStep (f.start ram p) k →
        Parts p.usedFrames (pageFrames k.state k.owned) (tableFrames k.state)
          k.state.pmm.usedFrames ∧
        (∀ v ∈ k.owned, ∃ b, pageFrame k.state v = some b) ∧
        (∀ v ∈ k.owned, ∀ v' ∈ k.owned, pageFrame k.state v = pageFrame k.state v' → v = v') ∧
        ∀ d ∈ newSlots k.state, ∀ d' ∈ newSlots k.state,
          k.state.table d = k.state.table d' → d = d' := by
  obtain ⟨p, hp, hgood⟩ := f.start_good hm ho ram
  refine ⟨p, hp, ?_⟩
  intro k hr
  obtain ⟨hk, hacc⟩ := hgood.accounts_run (f.start_accounts ram p) hr
  refine ⟨hacc, hk.sound.owns.mapped, ?_, ?_⟩
  · intro v hv v' hv' he
    obtain ⟨b, hb⟩ := hk.sound.owns.mapped v hv
    exact hk.sound.owns.inj v hv v' hv' b hb (he ▸ hb)
  · intro d hd d' hd' he
    obtain ⟨hlt, -, hpr⟩ := mem_newSlots.mp hd
    obtain ⟨hlt', -, hpr'⟩ := mem_newSlots.mp hd'
    exact hk.sound.tables.inj d hlt d' hlt' hpr hpr' he

/-- A page and its table appear in the accounts, and go again. -/
theorem frames_accounted_sample :
    ∃ p s₁ s₂, pmmInit sampleLayout sampleMap ⟨0x1000, 24⟩ = .ok p ∧
      allocPage (sampleFrames.start (fun _ _ => 0) p).state 0x400000 3 = .ok s₁ ∧
      (1 ∈ newSlots s₁ ∧ ∃ b, pageFrame s₁ (page 0x400000) = some b) ∧
      Parts p.usedFrames (pageFrames s₁ {page 0x400000}) (tableFrames s₁) s₁.pmm.usedFrames ∧
      freePage s₁ 0x400000 = .ok s₂ ∧
      Parts p.usedFrames (pageFrames s₂ ∅) (tableFrames s₂) s₂.pmm.usedFrames := by
  obtain ⟨p, hp, h⟩ := frames_accounted sampleLayout sampleMap ⟨0x1000, 24⟩ [sampleEntry]
    sampleMap_wellFormed sampleEntry_ordinary sampleFrames fun _ _ => 0
  obtain ⟨p', s₁, s₂, hp', ha, hok, ⟨hpresent, -⟩, hfree⟩ := sample_pages
  cases hp.symm.trans hp'
  have hmem : page 0x400000 ∈ Call.owned (.alloc 0x400000 3) ∅ := Finset.mem_insert_self _ _
  have hslot : dirIndex 0x400000 ≠ 768 := by decide
  have hr := Relation.ReflTransGen.single (Tracked.OrderlyStep.call (.alloc 0x400000 3) ha hslot hok)
  have hr' := hr.tail (.call (.free 0x400000) ⟨by decide, hmem⟩ hslot hfree)
  have howned : Call.owned (.free 0x400000) (Call.owned (.alloc 0x400000 3) ∅) = ∅ := by decide
  have hparts := (h _ hr').1
  rw [show (sampleFrames.start (fun _ _ => 0) p).owned = ∅ from rfl, howned] at hparts
  exact ⟨p, s₁, s₂, hp, hok, ⟨mem_newSlots.mpr ⟨by decide, by decide, hpresent⟩, (h _ hr).2.1 _ hmem⟩,
    (h _ hr).1, hfree, hparts⟩

end Runs

end Paging

end KallarOS
