import KallarOS.PagingAccess
import KallarOS.PmmInvariant

namespace KallarOS

namespace Pmm

/-- The frames are as before; only the hint of the search may differ. -/
structure PmmState.SameFrames (p p' : PmmState) : Prop where
  array : p'.array = p.array
  maxBlocks : p'.maxBlocks = p.maxBlocks
  usedBlocks : p'.usedBlocks = p.usedBlocks

variable {p p' : PmmState} {b c : ℕ}

/-- The bits determine the words. -/
theorem array_eq_of_bit (h : ∀ i, p'.bit i = p.bit i) : p'.array = p.array := by
  funext w
  apply BitVec.eq_of_getLsbD_eq
  intro j hj
  have hbit := h (32 * w + j)
  rwa [PmmState.bit, PmmState.bit, show (32 * w + j) / 32 = w by omega,
    show (32 * w + j) % 32 = j by omega] at hbit

theorem dec32_inc32 {u : ℕ} (h : u < 2 ^ 32) : dec32 (inc32 u) = u := by
  unfold dec32 inc32
  omega

theorem inc32_lt (u : ℕ) : inc32 u < 2 ^ 32 := Nat.mod_lt _ (by decide)

/-- A frame taken and given back. -/
theorem sameFrames_once (hb : p.Free b) (hu : p.usedBlocks < 2 ^ 32) :
    p.SameFrames ((p.allotted b).release b) where
  array := by
    apply array_eq_of_bit
    intro i
    rw [bit_release, PmmState.bit_allotted]
    by_cases hi : i = b
    · simp [hi, hb.2]
    · simp [hi]
  maxBlocks := rfl
  usedBlocks := dec32_inc32 hu

/-- Two frames taken and given back in the order they were taken. -/
theorem sameFrames_twice (hb : p.Free b) (hc : (p.allotted b).Free c)
    (hu : p.usedBlocks < 2 ^ 32) :
    p.SameFrames ((((p.allotted b).allotted c).release b).release c) where
  array := by
    apply array_eq_of_bit
    intro i
    -- both bits were clear before, also where the second search looked at the first one's mark
    have hcp := hc.2
    rw [PmmState.bit_allotted, Bool.or_eq_false_iff] at hcp
    simp only [bit_release, PmmState.bit_allotted]
    by_cases hib : i = b
    · simp [hib, hb.2]
    · by_cases hic : i = c
      · simp [hic, hcp.2]
      · simp [hib, hic]
  maxBlocks := rfl
  usedBlocks := by
    change dec32 (dec32 (inc32 (inc32 p.usedBlocks))) = p.usedBlocks
    rw [dec32_inc32 (inc32_lt _), dec32_inc32 hu]

/-- The second frame is still there when the first has gone back. -/
theorem pmmFreeFrame_second (hc : (p.allotted b).Free c) :
    pmmFreeFrame (((p.allotted b).allotted c).release b) (c * 4096) =
      .ok ((((p.allotted b).allotted c).release b).release c) := by
  have hcb : c ≠ b := by
    rintro rfl
    have hbit := hc.2
    rw [PmmState.bit_allotted] at hbit
    simp at hbit
  have hmax : c < (((p.allotted b).allotted c).release b).maxBlocks := hc.1
  apply pmmFreeFrame_used hmax
  rw [bit_release, PmmState.bit_allotted, decide_eq_false hcb, decide_eq_true rfl]
  rfl

theorem PmmState.Consistent.usedBlocks_lt (h : p.Consistent) : p.usedBlocks < 2 ^ 32 := by
  have hle := usedFrames_card_le p
  have hsmall := h.small
  rw [h.counted.count]
  omega

end Pmm

namespace Paging
open Pmm ByteMemory

/-- Directory entries that are not present are 0, and the frame allocator agrees with
its own counter. -/
structure Tidy (s : PagingState) : Prop where
  blank : ∀ i, ¬ Present (s.pde i) → s.pde i = 0
  consistent : s.pmm.Consistent

namespace Tidy

variable {s s' : PagingState} {va physAddr flags : ℕ}

theorem withPmm (h : Tidy s) {pmm : PmmState} (hc : pmm.Consistent) : Tidy (s.withPmm pmm) :=
  ⟨h.blank, hc⟩

theorem mapPage (h : Tidy s) (hw : Wired s) (hva : va < 0xFFC00000)
    (he : mapPage s va physAddr flags = .ok s') : Tidy s' := by
  have hd := dirIndex_lt hva
  rcases hw.mapPage_returned hva he with ⟨hp, rfl⟩ | ⟨b, pmm, -, ha, hb, hroot, -, rfl⟩
  · refine ⟨?_, ?_⟩
    · intro i hi
      rw [pde_putEntry (hw.rooted.apart _ hd hp)] at hi ⊢
      exact h.blank i hi
    · rw [pmm_putEntry]
      exact h.consistent
  · refine ⟨?_, ?_⟩
    · intro i hi
      rw [Wired.pde_newTable hb hroot] at hi ⊢
      split_ifs at hi ⊢
      · exact absurd (Wired.newEntry hb flags).1 hi
      · exact h.blank i hi
    · rw [pmm_putEntry]
      exact h.consistent.allocFrame ha

theorem unmapPage (h : Tidy s) (hw : Wired s) (hva : va < 0xFFC00000)
    (he : unmapPage s va = .ok s') : Tidy s' := by
  have hd := dirIndex_lt hva
  obtain ⟨hp, r, hr, hwr, hdrop⟩ := hw.unmapPage_returned hva he
  have hpde : ∀ i, r.pde i = s.pde i := by
    rcases hr with rfl | rfl
    · exact fun _ => rfl
    · exact pde_removeEntry (hw.rooted.apart _ hd hp)
  have hpmm : r.pmm = s.pmm := by
    rcases hr with rfl | rfl
    · rfl
    · rfl
  have hblank : ∀ i, ¬ Present (r.pde i) → r.pde i = 0 := by
    intro i hi
    rw [hpde] at hi ⊢
    exact h.blank i hi
  rcases (hwr.dropTable hd hdrop).2 with rfl | ⟨a, pmm, hfree, rfl⟩
  · exact ⟨hblank, hpmm ▸ h.consistent⟩
  · rw [hpmm] at hfree
    refine ⟨?_, h.consistent.freeFrame hfree⟩
    intro i hi
    rw [r.pde_clearDir] at hi ⊢
    split_ifs at hi ⊢
    · rfl
    · exact hblank i hi

theorem exec {c : Call} (h : Tidy s) (hw : Wired s) (hva : c.address < 0xFFC00000)
    (he : c.exec s = .ok s') : Tidy s' := by
  cases c with
  | map va physAddr flags => exact h.mapPage hw hva he
  | alloc va flags =>
    obtain ⟨b, pmm, ha, -, hw', hmap⟩ := hw.allocPage_returned hva he
    exact (h.withPmm (h.consistent.allocFrame ha)).mapPage hw' hva hmap
  | unmap va => exact h.unmapPage hw hva he
  | free va =>
    obtain ⟨a, pmm, hfree, hw', hun⟩ := hw.freePage_returned hva he
    exact (h.withPmm (h.consistent.freeFrame hfree)).unmapPage hw' hva hun

end Tidy

theorem Tracked.Good.tidy_run {k k' : Tracked} (h : k.Good) (ht : Tidy k.state)
    (hr : Relation.ReflTransGen Tracked.ProperStep k k') : k'.Good ∧ Tidy k'.state := by
  induction hr with
  | refl => exact ⟨h, ht⟩
  | tail _ hs ih =>
    refine ⟨ih.1.properStep hs, ?_⟩
    obtain ⟨c, ha, he⟩ := hs
    exact ih.2.exec ih.1.sound.wired ha.below he

theorem BootFrames.start_tidy {l : Layout} (f : BootFrames l) {ram : ℕ → ℕ → ℕ} {p : PmmState}
    (hc : p.Consistent) : Tidy (f.start ram p).state := by
  refine ⟨?_, hc⟩
  intro i hi
  rw [f.pde_start, present_bootDirectory, not_or] at hi
  rw [f.pde_start, bootDirectory, if_neg hi.1, if_neg hi.2]

/-- Nothing is left of a pair of calls: the frames, the directory, the counters and
every translation are as before. -/
structure Restored (s s' : PagingState) : Prop where
  frames : s.pmm.SameFrames s'.pmm
  directory : ∀ i < 1024, s'.pde i = s.pde i
  refCounter : ∀ i < 1024, s'.refCounter i = s.refCounter i
  translations : ∀ w < 2 ^ 32, walk s' w = walk s w

section Window

variable {s s' : PagingState} {w : ℕ}

theorem lt_of_dirIndex (h : dirIndex w < 768) : w < 0xFFC00000 := by
  unfold dirIndex at h
  omega

/-- In the recursive window the walk meets the directory twice. -/
theorem walk_window (h : Rooted s) (hlow : 0xFFC00000 ≤ w) (hw : w < 2 ^ 32) :
    walk s w =
      if Present (s.pde (tabIndex w)) then some (s.pde 1023, s.pde (tabIndex w)) else none := by
  have hd : dirIndex w = 1023 := by
    unfold dirIndex
    omega
  have hpte : s.pte 1023 (tabIndex w) = s.pde (tabIndex w) := by
    rw [PagingState.pte, h.root]
    rfl
  rw [walk, walkAt, hd, hpte]
  by_cases hp : Present (s.pde (tabIndex w))
  · rw [if_pos ⟨h.slot, hp⟩, if_pos hp]
  · rw [if_neg fun hc => hp hc.2, if_neg hp]

/-- Below the window the translations of the pages count, above it the directory. -/
theorem walk_eq_of_directory (h : Rooted s) (h' : Rooted s')
    (hdir : ∀ i < 1024, s'.pde i = s.pde i) (hbelow : ∀ w < 0xFFC00000, walk s' w = walk s w)
    (hw : w < 2 ^ 32) : walk s' w = walk s w := by
  by_cases hlow : w < 0xFFC00000
  · exact hbelow w hlow
  · rw [walk_window h (by omega) hw, walk_window h' (by omega) hw, hdir _ (tabIndex_lt w),
      hdir 1023 (by decide)]

end Window

section TakeBack

variable {q : PagingState} {pmm : PmmState} {d t e : ℕ}

/-- An entry put in and taken out again leaves the directory and the counters. -/
theorem pde_takeBack (hap : q.table d ≠ q.cr3) (i : ℕ) :
    (((q.putEntry d t e).withPmm pmm).removeEntry d t).pde i = q.pde i := by
  have hap' : ((q.putEntry d t e).withPmm pmm).table d ≠ ((q.putEntry d t e).withPmm pmm).cr3 := by
    change (q.putEntry d t e).table d ≠ (q.putEntry d t e).cr3
    rwa [table_putEntry hap, cr3_putEntry]
  rw [pde_removeEntry hap']
  exact pde_putEntry hap i

theorem Rooted.takeBack (h : Rooted q) (hap : q.table d ≠ q.cr3) :
    Rooted (((q.putEntry d t e).withPmm pmm).removeEntry d t) := by
  have hc : (((q.putEntry d t e).withPmm pmm).removeEntry d t).cr3 = q.cr3 :=
    cr3_putEntry (e := e)
  refine h.congr hc ?_
  intro i
  have hpde : (((q.putEntry d t e).withPmm pmm).removeEntry d t).pde i = q.pde i :=
    pde_takeBack hap i
  rwa [PagingState.pde, hc] at hpde

theorem refCounter_takeBack (hpt : ¬ Present (q.pte d t)) (hlt : q.refCounter d < 2 ^ 16) (i : ℕ) :
    (((q.putEntry d t e).withPmm pmm).removeEntry d t).refCounter i = q.refCounter i := by
  rw [refCounter_removeEntry, PagingState.refCounter_withPmm, refCounter_putEntry,
    refCounter_putEntry]
  by_cases hi : i = d
  · subst hi
    rw [if_pos rfl, if_pos ⟨rfl, hpt⟩]
    omega
  · rw [if_neg hi, if_neg fun hc => hi hc.1]

/-- `free_page` right after the entry was made, up to the fate of the table. -/
theorem Sound.freePage_takeBack {owned : Finset ℕ} {va b : ℕ}
    (h : Sound (q.putEntry (dirIndex va) (tabIndex va) e) owned) (hva : va < 0xFFC00000)
    (hown : page va ∈ owned)
    (hb : pageFrame (q.putEntry (dirIndex va) (tabIndex va) e) (page va) = some b) :
    Paging.freePage (q.putEntry (dirIndex va) (tabIndex va) e) va =
      Paging.dropTable (((q.putEntry (dirIndex va) (tabIndex va) e).withPmm
        (q.pmm.release b)).removeEntry (dirIndex va) (tabIndex va)) (dirIndex va) := by
  obtain ⟨hp, hpt⟩ := present_of_pageFrame hb
  have hr := h.tables.rooted.withPmm (q.pmm.release b)
  rw [h.freePage_eq hva hown hb, pmm_putEntry, unmapPage_eq hr h.enabled hva]
  exact (if_pos hp).trans (congrArg (Paging.dropTable · _) (if_pos hpt))

end TakeBack

section RoundTrip

variable {s : PagingState} {owned : Finset ℕ} {va flags b : ℕ}

theorem SameElsewhere.roundTrip {s₁ s₂ : PagingState} {owned' : Finset ℕ} {pmm : PmmState}
    (helse : SameElsewhere s s₁ va) (hw : walk s va = none)
    (hu : Unmapped (s₁.withPmm pmm) s₂ owned' va) : ∀ w < 0xFFC00000, walk s₂ w = walk s w := by
  intro w hlt
  by_cases hpage : page w = page va
  · obtain ⟨hd, ht⟩ := page_eq_iff.mp hpage
    have hsame : ∀ s : PagingState, walk s w = walk s va := fun s => by rw [walk, hd, ht, walk]
    rw [hsame, hsame, hu.here, hw]
  · exact (hu.elsewhere w hlt hpage).trans (helse w hlt hpage)

/-- Both calls return and restore the translations. The last part says what `free_page`
does once the state after `alloc_page` is known as an entry put into some state `q`. -/
theorem Sound.roundTrip_calls (h : Sound s owned) (hf : Filled s) (hva : va < 0xFFC00000)
    (hfl : flags < 4096) (hpr : Present flags) (hw : walk s va = none) (hb : s.pmm.Free b)
    (hok : pmmAllocFrame s.pmm = .ok (b * 4096, s.pmm.allotted b))
    (ha : Present (s.pde (dirIndex va)) ∨ CanAlloc (s.pmm.allotted b)) :
    ∃ s₁ s₂, Paging.allocPage s va flags = .ok s₁ ∧ Paging.freePage s₁ va = .ok s₂ ∧ Rooted s₂ ∧
      (∀ w < 0xFFC00000, walk s₂ w = walk s w) ∧
      ∀ (q : PagingState) (e : ℕ), s₁ = q.putEntry (dirIndex va) (tabIndex va) e →
        Paging.dropTable ((s₁.withPmm (q.pmm.release b)).removeEntry (dirIndex va) (tabIndex va))
          (dirIndex va) = .ok s₂ := by
  obtain ⟨s₁, halloc, hs₁, ⟨pde, hhere⟩, helse, hfill, -⟩ :=
    h.allocPage hva hfl hpr hw hb hok ha
  obtain ⟨hs, hspare⟩ := h.allot hb
  have hframe : pageFrame s₁ (page va) = some b := by
    rw [pageFrame, page_div, page_mod]
    change (walk s₁ va).map _ = _
    rw [hhere, Option.map_some, hspare.frameOf_or hs.tables hfl]
  have hown := Finset.mem_insert_self (page va) owned
  obtain ⟨b', s₂, hb', hfree, hu⟩ := hs₁.freePage (hfill hf) hva hown
  cases hframe.symm.trans hb'
  refine ⟨s₁, s₂, halloc, hfree, hu.sound.tables.rooted, helse.roundTrip hw hu, ?_⟩
  rintro q e rfl
  exact (hs₁.freePage_takeBack hva hown hframe).symm.trans hfree

/-- The table existed. It has other entries, so it stays. -/
theorem Sound.roundTrip_old (h : Sound s owned) (hf : Filled s) (ht : Tidy s)
    (hlow : dirIndex va < 768) (hfl : flags < 4096) (hpr : Present flags)
    (hw : walk s va = none) (hb : s.pmm.Free b)
    (hok : pmmAllocFrame s.pmm = .ok (b * 4096, s.pmm.allotted b))
    (hp : Present (s.pde (dirIndex va))) :
    ∃ s₁ s₂, Paging.allocPage s va flags = .ok s₁ ∧ Paging.freePage s₁ va = .ok s₂ ∧
      Restored s s₂ := by
  have hva := lt_of_dirIndex hlow
  have hd := dirIndex_lt hva
  have hap := h.tables.rooted.apart _ hd hp
  have hpt : ¬ Present (s.pte (dirIndex va) (tabIndex va)) := by
    intro hc
    rw [walk, walkAt, if_pos ⟨hp, hc⟩] at hw
    exact Option.some_ne_none _ hw
  obtain ⟨s₁, s₂, halloc, hfree, hr, hwalk, hdrop⟩ :=
    h.roundTrip_calls hf hva hfl hpr hw hb hok (.inl hp)
  refine ⟨s₁, s₂, halloc, hfree, ?_⟩
  -- `q` is the state in which the entry is put in: the frame is taken, nothing else has changed
  let q := s.withPmm (s.pmm.allotted b)
  have hq : Wired q := (h.allot hb).1.wired
  have hmap := (h.allocPage_eq hva hw hb hok).trans (hq.mapPage_present hva hp (b * 4096) flags)
  have hs₁ := Except.ok.inj (halloc.symm.trans hmap)
  have hdrop := hdrop q _ hs₁
  subst hs₁
  let r := ((q.putEntry (dirIndex va) (tabIndex va) (b * 4096 ||| flags)).withPmm
    (q.pmm.release b)).removeEntry (dirIndex va) (tabIndex va)
  have hcount : s.refCounter (dirIndex va) = (s.entries (dirIndex va)).card :=
    h.tables.counted _ hlow hp
  have hle := s.card_entries_le (dirIndex va)
  have hpos := Finset.card_pos.mpr (hf _ hlow hp)
  have hdir : ∀ i, r.pde i = s.pde i := pde_takeBack (q := q) hap
  have href : ∀ i, r.refCounter i = s.refCounter i :=
    refCounter_takeBack (q := q) hpt (by change s.refCounter _ < _; omega)
  -- the counter is back at the number of the other entries
  have hstay : ¬ (r.refCounter (dirIndex va) = 0 ∧ dirIndex va < 768) := by
    rw [href]
    omega
  have hrr : Rooted r := hq.rooted.takeBack hap
  change Paging.dropTable r _ = _ at hdrop
  rw [dropTable_eq hrr (by omega), if_neg hstay] at hdrop
  obtain rfl : r = s₂ := Except.ok.inj hdrop
  refine ⟨?_, fun i _ => hdir i, fun i _ => href i, fun w hlt => ?_⟩
  · exact sameFrames_once hb ht.consistent.usedBlocks_lt
  · exact walk_eq_of_directory h.tables.rooted hr (fun i _ => hdir i) hwalk hlt

/-- The table was made for this page. It goes with it, and its frame goes back. -/
theorem Sound.roundTrip_new (h : Sound s owned) (hf : Filled s) (ht : Tidy s)
    (hlow : dirIndex va < 768) (hfl : flags < 4096) (hpr : Present flags)
    (hw : walk s va = none) (hb : s.pmm.Free b)
    (hok : pmmAllocFrame s.pmm = .ok (b * 4096, s.pmm.allotted b))
    (hp : ¬ Present (s.pde (dirIndex va))) (hcan : CanAlloc (s.pmm.allotted b)) :
    ∃ s₁ s₂, Paging.allocPage s va flags = .ok s₁ ∧ Paging.freePage s₁ va = .ok s₂ ∧
      Restored s s₂ := by
  have hva := lt_of_dirIndex hlow
  have hd := dirIndex_lt hva
  obtain ⟨s₁, s₂, halloc, hfree, hr, hwalk, hdrop⟩ :=
    h.roundTrip_calls hf hva hfl hpr hw hb hok (.inr hcan)
  refine ⟨s₁, s₂, halloc, hfree, ?_⟩
  have hs := (h.allot hb).1
  obtain ⟨c, hc, hokc⟩ := hs.tables.canAlloc hcan
  have hroot : c ≠ s.cr3 := (hs.tables.free_apart hc).2.1
  have hclt : c < 2 ^ 20 := hc.1.trans_le hs.tables.maxBlocks_le
  obtain ⟨hpe, hfr⟩ := Wired.newEntry hclt flags
  have hne : frameOf (c * 4096 ||| dirFlags flags) ≠ s.cr3 := by rwa [hfr]
  -- here both frames are taken and the new table is empty
  let q := (s.withPmm ((s.pmm.allotted b).allotted c)).addTable (dirIndex va)
    (c * 4096 ||| dirFlags flags)
  have hqr : Rooted q := (h.tables.rooted.withPmm _).addTable hd hne
  have hqpde : ∀ i, q.pde i = if i = dirIndex va then c * 4096 ||| dirFlags flags else s.pde i :=
    pde_addTable hne
  have hqtab : q.table (dirIndex va) = c := by rw [PagingState.table, hqpde, if_pos rfl, hfr]
  have hqpt : ¬ Present (q.pte (dirIndex va) (tabIndex va)) := by
    have hempty : q.pte (dirIndex va) (tabIndex va) = _ :=
      pte_addTable hne (tabIndex_lt va) fun hi => absurd rfl hi
    rw [hempty, if_pos rfl]
    decide
  have hmap := (h.allocPage_eq hva hw hb hok).trans
    (hs.wired.mapPage_absent hva hp hokc hclt hroot (b * 4096) flags)
  have hs₁ := Except.ok.inj (halloc.symm.trans hmap)
  have hdrop := hdrop q _ hs₁
  subst hs₁
  let r := ((q.putEntry (dirIndex va) (tabIndex va) (b * 4096 ||| flags)).withPmm
    (q.pmm.release b)).removeEntry (dirIndex va) (tabIndex va)
  have hap : q.table (dirIndex va) ≠ q.cr3 := by
    rw [hqtab]
    exact hroot
  have hdir : ∀ i, r.pde i = q.pde i := pde_takeBack hap
  have hzero : s.refCounter (dirIndex va) = 0 := h.tables.uncounted _ hlow hp
  have href : ∀ i, r.refCounter i = s.refCounter i :=
    refCounter_takeBack hqpt (by change s.refCounter _ < _; omega)
  have hrtab : r.table (dirIndex va) = c := by
    rw [PagingState.table, hdir]
    exact hqtab
  -- the counter is back at 0, so the table goes as well
  have hcfree : pmmFreeFrame r.pmm (c * 4096) = .ok (r.pmm.release c) := pmmFreeFrame_second hc
  change Paging.dropTable r _ = _ at hdrop
  rw [dropTable_eq (hqr.takeBack hap) (by omega), if_pos ⟨(href _).trans hzero, hlow⟩, hrtab,
    hcfree, Outcome.ok_bind] at hdrop
  obtain rfl : (r.withPmm (r.pmm.release c)).setWord r.cr3 (dirIndex va) 0 = s₂ :=
    Except.ok.inj hdrop
  have hdir' : ∀ i, ((r.withPmm (r.pmm.release c)).setWord r.cr3 (dirIndex va) 0).pde i =
      s.pde i := by
    intro i
    rw [r.pde_clearDir]
    by_cases hi : i = dirIndex va
    -- `unmap_page` writes 0, which is what an entry without the present bit was
    · rw [if_pos hi, hi, ht.blank _ hp]
    · rw [if_neg hi]
      exact (hdir i).trans ((hqpde i).trans (if_neg hi))
  refine ⟨?_, fun i _ => hdir' i, fun i _ => href i, fun w hlt => ?_⟩
  -- the page's frame goes back before the table's
  · exact sameFrames_twice hb hc ht.consistent.usedBlocks_lt
  · exact walk_eq_of_directory h.tables.rooted hr (fun i _ => hdir' i) hwalk hlt

end RoundTrip

section Results

/-- In every state the calls can reach, `alloc_page` on an unmapped page below the kernel
half and `free_page` on it again return and leave no trace, whether the page table was
there or had to be made. -/
theorem alloc_free_leaves_no_trace (l : Layout) (mem : Mem) (mbd : MultibootInfo)
    (es : List MmapEntry) (hm : MemoryMap mem mbd es) (ho : ∀ e ∈ es, e.Ordinary)
    (f : BootFrames l) (ram : ℕ → ℕ → ℕ) :
    ∃ p, pmmInit l mem mbd = .ok p ∧
      ∀ k, Relation.ReflTransGen Tracked.ProperStep (f.start ram p) k →
        ∀ va flags, dirIndex va < 768 → walk k.state va = none →
          Call.Allowed (.alloc va flags) k →
          ∃ s₁ s₂, allocPage k.state va flags = .ok s₁ ∧ freePage s₁ va = .ok s₂ ∧
            Restored k.state s₂ := by
  obtain ⟨p, hp, hi⟩ := pmmInit_ok l hm ho
  have hgood : (f.start ram p).Good := ⟨f.start_sound ram ho hi, f.start_filled ram⟩
  refine ⟨p, hp, ?_⟩
  intro k hr va flags hlow hw ha
  obtain ⟨hk, htidy⟩ := hgood.tidy_run (f.start_tidy (hi.consistent ho)) hr
  obtain ⟨-, hfl, hpr, addr, pmm', hok, hne, hnext⟩ := ha
  obtain ⟨b, hb, hok'⟩ := hk.sound.tables.canAlloc ⟨addr, pmm', hok, hne⟩
  cases hok'.symm.trans hok
  by_cases hpd : Present (k.state.pde (dirIndex va))
  · exact hk.sound.roundTrip_old hk.filled htidy hlow hfl hpr hw hb hok' hpd
  · exact hk.sound.roundTrip_new hk.filled htidy hlow hfl hpr hw hb hok' hpd
      (hnext.resolve_left hpd)

/-- The first page below the kernel half on the sample machine: a table and a page are
made and both go. -/
theorem alloc_free_leaves_no_trace_sample :
    ∃ p s₁ s₂, pmmInit sampleLayout sampleMap ⟨0x1000, 24⟩ = .ok p ∧
      allocPage (sampleFrames.start (fun _ _ => 0) p).state 0x400000 3 = .ok s₁ ∧
      freePage s₁ 0x400000 = .ok s₂ ∧
      Restored (sampleFrames.start (fun _ _ => 0) p).state s₂ := by
  obtain ⟨p, hp, h⟩ := alloc_free_leaves_no_trace sampleLayout sampleMap ⟨0x1000, 24⟩
    [sampleEntry] sampleMap_wellFormed sampleEntry_ordinary sampleFrames fun _ _ => 0
  obtain ⟨p', hp', hi⟩ := pmmInit_ok sampleLayout sampleMap_wellFormed sampleEntry_ordinary
  cases hp.symm.trans hp'
  obtain ⟨s₁, s₂, hs⟩ := h _ .refl 0x400000 3 (by decide) (sample_absent p rfl (by decide))
    (sample_allowed hi (by decide))
  exact ⟨p, s₁, s₂, hp, hs⟩

end Results
end Paging
end KallarOS
