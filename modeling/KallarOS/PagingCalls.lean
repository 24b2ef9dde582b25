import KallarOS.PagingOwnership

namespace KallarOS.Paging
open Pmm

/-- The number of the virtual page of `va`. -/
def page (va : ℕ) : ℕ := 1024 * dirIndex va + tabIndex va

/-- The translation of every other page below the recursive window is untouched. -/
def SameElsewhere (s s' : PagingState) (va : ℕ) : Prop :=
  ∀ w < 0xFFC00000, page w ≠ page va → walk s' w = walk s w

/-- No table below the kernel half is kept without a present entry. -/
def Filled (s : PagingState) : Prop := ∀ d < 768, Present (s.pde d) → (s.entries d).Nonempty

def CanAlloc (p : PmmState) : Prop := ∃ addr p', pmmAllocFrame p = .ok (addr, p') ∧ addr ≠ 0

section Addresses

variable {va : ℕ}

theorem dirIndex_lt (h : va < 0xFFC00000) : dirIndex va < 1023 := by
  unfold dirIndex
  omega

theorem tabIndex_lt (va : ℕ) : tabIndex va < 1024 := Nat.mod_lt _ (by decide)

theorem page_div (va : ℕ) : page va / 1024 = dirIndex va := by
  have := tabIndex_lt va
  unfold page
  omega

theorem page_mod (va : ℕ) : page va % 1024 = tabIndex va := by
  have := tabIndex_lt va
  unfold page
  omega

theorem page_eq_iff {w : ℕ} : page w = page va ↔ dirIndex w = dirIndex va ∧ tabIndex w = tabIndex va := by
  constructor
  · intro h
    exact ⟨by rw [← page_div, h, page_div], by rw [← page_mod, h, page_mod]⟩
  · rintro ⟨h1, h2⟩
    rw [page, h1, h2, page]

theorem page_eq_div (va : ℕ) : page va = va / 4096 := by
  unfold page dirIndex tabIndex
  omega

end Addresses

section Routines

variable {s : PagingState} {va : ℕ}

/-- `alloc_page` with the answer of the frame allocator taken out. -/
theorem allocPage_eq (h : Rooted s) (hen : s.pagingEnabled = true) (hva : va < 0xFFC00000)
    {addr : ℕ} {pmm : PmmState} (hok : pmmAllocFrame s.pmm = .ok (addr, pmm)) (flags : ℕ) :
    allocPage s va flags =
      if Present (s.pde (dirIndex va)) ∧ Present (s.pte (dirIndex va) (tabIndex va)) then
        .error (.panic "Virtual address already mapped!\n")
      else if addr = 0 then .error (.panic "Out of RAM\n")
      else mapPage (s.withPmm pmm) va addr flags := by
  have hd := dirIndex_lt hva
  rw [allocPage, if_neg (not_not.mpr hen),
    alreadyMapped_eq h (by omega : dirIndex va < 1024) (tabIndex_lt va), Outcome.ok_bind, hok]
  by_cases hc : Present (s.pde (dirIndex va)) ∧ Present (s.pte (dirIndex va) (tabIndex va))
  · rw [decide_eq_true hc, if_pos rfl, if_pos hc]
  · rw [decide_eq_false hc, if_neg Bool.false_ne_true, if_neg hc]
    rfl

theorem unmapPage_eq (h : Rooted s) (hen : s.pagingEnabled = true) (hva : va < 0xFFC00000) :
    unmapPage s va =
      if Present (s.pde (dirIndex va)) then
        dropTable (if Present (s.pte (dirIndex va) (tabIndex va)) then
          s.removeEntry (dirIndex va) (tabIndex va) else s) (dirIndex va)
      else .error (.panic "Page Directory Entry not present!\n\n") := by
  have hd := dirIndex_lt hva
  rw [unmapPage, if_neg (not_not.mpr hen), vread_dir h (by omega), Outcome.ok_bind]
  by_cases hp : Present (s.pde (dirIndex va))
  · rw [if_neg fun h0 => and_present_eq_zero.mp h0 hp, if_pos hp,
      dropEntry_eq h (by omega) (tabIndex_lt va) hp, Outcome.ok_bind]
  · rw [if_pos (and_present_eq_zero.mpr hp), if_neg hp]

theorem freePage_eq (h : Rooted s) (hen : s.pagingEnabled = true) (hva : va < 0xFFC00000) :
    freePage s va =
      if Present (s.pde (dirIndex va)) then
        if Present (s.pte (dirIndex va) (tabIndex va)) then
          pmmFreeFrame s.pmm (frameOf (s.pte (dirIndex va) (tabIndex va)) * 4096) >>= fun pmm =>
            unmapPage (s.withPmm pmm) va
        else .error (.panic "Page Table Entry not present!\n")
      else .error (.panic "Page Directory Entry not present!\n") := by
  have hd := dirIndex_lt hva
  rw [freePage, if_neg (not_not.mpr hen), vread_dir h (by omega), Outcome.ok_bind]
  by_cases hp : Present (s.pde (dirIndex va))
  · rw [if_neg fun h0 => and_present_eq_zero.mp h0 hp, if_pos hp,
      vread_table h (by omega) (tabIndex_lt va) hp, Outcome.ok_bind, and_frameMask]
    by_cases hpt : Present (s.pte (dirIndex va) (tabIndex va))
    · rw [if_neg fun h0 => and_ptePresent_eq_zero.mp h0 hpt, if_pos hpt]
      rfl
    · rw [if_pos (and_ptePresent_eq_zero.mpr hpt), if_neg hpt]
  · rw [if_pos (and_present_eq_zero.mpr hp), if_neg hp]

end Routines

section Allocation

variable {s : PagingState} {owned : Finset ℕ}

theorem Tables.canAlloc (h : Tables s) (hc : CanAlloc s.pmm) :
    ∃ b, s.pmm.Free b ∧ pmmAllocFrame s.pmm = .ok (b * 4096, s.pmm.allotted b) := by
  obtain ⟨addr, p', ha, hne⟩ := hc
  rcases pmmAllocFrame_spec h.padded h.maxBlocks_le with ⟨b, hb, hok⟩ | ⟨-, hok⟩
  · exact ⟨b, hb.free, hok⟩
  · rw [hok] at ha
    cases ha
    exact absurd rfl hne

theorem Tables.canAlloc_of_free (h : Tables s) {b : ℕ} (hb : s.pmm.Free b) : CanAlloc s.pmm := by
  rcases pmmAllocFrame_spec h.padded h.maxBlocks_le with ⟨c, hc, hok⟩ | ⟨hnone, -⟩
  · refine ⟨_, _, hok, ?_⟩
    have hpos : c ≠ 0 := by
      rintro rfl
      exact h.zero_used hc.free
    omega
  · exact absurd hb (hnone b)

theorem Spare.frameOf_or {b f : ℕ} (h : Spare s owned b) (ht : Tables s) (hf : f < 4096) :
    frameOf (b * 4096 ||| f) = b := by
  have hlt := h.apart.lt
  have hmax := ht.maxBlocks_le
  rw [Paging.frameOf_or (Nat.mul_mod_left b 4096) hf]
  omega

end Allocation

section Map

variable {s : PagingState} {owned : Finset ℕ} {va physAddr flags : ℕ}

/-- The part of `map_page` after the table exists. -/
theorem Sound.enter {e : ℕ} (h : Sound s owned) (hva : va < 0xFFC00000) (he : Present e)
    (hp : Present (s.pde (dirIndex va))) :
    let s' := s.putEntry (dirIndex va) (tabIndex va) e
    walk s' va = some (s.pde (dirIndex va), e) ∧ SameElsewhere s s' va := by
  have hd := dirIndex_lt hva
  refine ⟨?_, fun w hw hne => ?_⟩
  · rw [walk, walkAt_putEntry h.tables hd hd hp he, if_pos ⟨rfl, rfl⟩]
  · rw [walk, walkAt_putEntry h.tables hd (dirIndex_lt hw) hp he,
      if_neg fun hc => hne (page_eq_iff.mpr hc), walk]

theorem Filled.putEntry (hf : Filled s) (h : Tables s) {d t e : ℕ} (hd : d < 1023) (hp : Present (s.pde d)) (he : Present e) : Filled (s.putEntry d t e) := by
  have hap := h.rooted.apart d hd hp
  intro i hi hpi
  rw [pde_putEntry hap] at hpi
  obtain ⟨j, hj⟩ := hf i hi hpi
  obtain ⟨hj, hpj⟩ := PagingState.mem_entries.mp hj
  refine ⟨j, PagingState.mem_entries.mpr ⟨hj, ?_⟩⟩
  rw [pte_putEntry hap]
  split_ifs
  · exact he
  · exact hpj

/-- Entering a page in a new table fills it. -/
theorem Filled.newTable (hf : Filled s) (h : Tables s) {d t e e' : ℕ} (hd : d < 1023)
    (ht : t < 1024) (ha : Apart s (frameOf e)) (he : Present e) (he' : Present e')
    (htab : Tables (s.addTable d e)) : Filled ((s.addTable d e).putEntry d t e') := by
  have hp : Present ((s.addTable d e).pde d) := by rwa [pde_addTable ha.root, if_pos rfl]
  have hap := htab.rooted.apart d hd hp
  intro i hi hpi
  rw [pde_putEntry hap] at hpi
  by_cases hid : i = d
  · subst hid
    refine ⟨t, PagingState.mem_entries.mpr ⟨ht, ?_⟩⟩
    rwa [pte_putEntry hap, if_pos ⟨rfl, rfl⟩]
  · have hpi' : Present (s.pde i) := by rwa [pde_addTable ha.root, if_neg hid] at hpi
    obtain ⟨j, hj⟩ := hf i hi hpi'
    obtain ⟨hj, hpj⟩ := PagingState.mem_entries.mp hj
    refine ⟨j, PagingState.mem_entries.mpr ⟨hj, ?_⟩⟩
    rw [pte_putEntry hap]
    split_ifs
    · exact he'
    · rwa [pte_addTable ha.root hj fun _ =>
        ⟨ha.tables i (by omega) hpi', h.rooted.apart i (by omega) hpi'⟩, if_neg hid]

/-- The effect of a successful `map_page`. -/
structure Mapped (s s' : PagingState) (owned owned' : Finset ℕ) (va entry : ℕ) : Prop where
  sound : Sound s' owned'
  spare : ∀ c, Spare s owned c → Spare s' owned' c
  here : ∃ pde, walk s' va = some (pde, entry)
  elsewhere : SameElsewhere s s' va
  filled : Filled s → Filled s'
  kept : ∀ d < 1023, Present (s.pde d) → s'.pde d = s.pde d
  frames : s.pmm.usedFrames ⊆ s'.pmm.usedFrames

theorem usedFrames_subset_allotted (p : PmmState) (b : ℕ) :
    p.usedFrames ⊆ (p.allotted b).usedFrames := by
  intro j hj
  obtain ⟨hlt, hb⟩ := PmmState.mem_usedFrames.mp hj
  refine PmmState.mem_usedFrames.mpr ⟨hlt, ?_⟩
  rw [PmmState.bit_allotted, hb, Bool.or_true]

/-- `map_page` with any address and any flags that make a present entry. -/
theorem Sound.mapPage_entry (h : Sound s owned) (hva : va < 0xFFC00000)
    (he : Present (physAddr ||| flags))
    (ha : Present (s.pde (dirIndex va)) ∨ CanAlloc s.pmm) :
    ∃ s', mapPage s va physAddr flags = .ok s' ∧
      Mapped s s' owned (owned.erase (page va)) va (physAddr ||| flags) := by
  have hd := dirIndex_lt hva
  have ht := tabIndex_lt va
  have hen : Paging.mapPage s va physAddr flags =
      mapPageEnabled s (dirIndex va) (tabIndex va) physAddr flags := by
    rw [Paging.mapPage, if_pos h.enabled]
  by_cases hp : Present (s.pde (dirIndex va))
  · obtain ⟨hs, hspare⟩ := h.putEntry hd ht hp he
    obtain ⟨hhere, helse⟩ := h.enter hva he hp
    have hap := h.tables.rooted.apart _ hd hp
    exact ⟨_, hen.trans (mapPageEnabled_present h.tables.rooted (by omega) ht hp _ _), hs, hspare,
      ⟨_, hhere⟩, helse, fun hf => hf.putEntry h.tables hd hp he, fun i _ _ => pde_putEntry hap i,
      by rw [pmm_putEntry]⟩
  · obtain ⟨b, hb, hok⟩ := h.tables.canAlloc (ha.resolve_left hp)
    obtain ⟨hs₁, hb₀⟩ := h.allot hb
    have hfr := hb₀.frameOf_or hs₁.tables (dirFlags_lt flags)
    have hpe : Present (b * 4096 ||| dirFlags flags) :=
      (present_or (Nat.mul_mod_left b 4096) (dirFlags_lt flags)).mpr (dirFlags_present flags)
    have hb₁ : Spare (s.withPmm (s.pmm.allotted b)) owned
        (frameOf (b * 4096 ||| dirFlags flags)) := by
      rw [hfr]
      exact hb₀
    obtain ⟨hs₂, hwalk, hspare₂⟩ := hs₁.addTable hd hp hpe hb₁
    have hp₂ : Present (((s.withPmm (s.pmm.allotted b)).addTable (dirIndex va)
        (b * 4096 ||| dirFlags flags)).pde (dirIndex va)) := by
      rwa [pde_addTable hb₁.apart.root, if_pos rfl]
    obtain ⟨hs₃, hspare₃⟩ := hs₂.putEntry hd ht hp₂ he
    obtain ⟨hhere, helse⟩ := hs₂.enter hva he hp₂
    have hap := hs₂.tables.rooted.apart _ hd hp₂
    refine ⟨_, hen.trans (mapPageEnabled_absent h.tables.rooted hd ht hp hok hpe hb₁.apart.root),
      hs₃, fun c hc => ?_, ⟨_, hhere⟩, fun w hw hne => ?_, fun hf => ?_, fun i hi hpi => ?_, ?_⟩
    · -- a frame that was spare before is not the one just allocated
      refine hspare₃ c (hspare₂ c (fun hcb => ?_) hc.of_allot)
      have := hc.apart.used
      rw [hcb, hfr, hb.2] at this
      exact Bool.noConfusion this
    · rw [helse w hw hne]
      exact hwalk _ (dirIndex_lt hw) _ (tabIndex_lt w)
    · exact Filled.newTable (s := s.withPmm (s.pmm.allotted b)) hf hs₁.tables hd ht hb₁.apart hpe he
        hs₂.tables
    · have hid : i ≠ dirIndex va := fun hid => hp (hid ▸ hpi)
      rw [pde_putEntry hap, pde_addTable hb₁.apart.root, if_neg hid]
      rfl
    · rw [pmm_putEntry]
      exact usedFrames_subset_allotted s.pmm b

theorem Sound.mapPage (h : Sound s owned) (hva : va < 0xFFC00000) (hpa : physAddr % 4096 = 0)
    (hfl : flags < 4096) (hpr : Present flags)
    (ha : Present (s.pde (dirIndex va)) ∨ CanAlloc s.pmm) :
    ∃ s', mapPage s va physAddr flags = .ok s' ∧
      Mapped s s' owned (owned.erase (page va)) va (physAddr ||| flags) :=
  h.mapPage_entry hva ((present_or hpa hfl).mpr hpr) ha

/-- `alloc_page` on an unmapped page takes a frame and goes on as `map_page`. -/
theorem Sound.allocPage_eq (h : Sound s owned) (hva : va < 0xFFC00000) (hw : walk s va = none)
    {b : ℕ} (hb : s.pmm.Free b)
    (hok : pmmAllocFrame s.pmm = .ok (b * 4096, s.pmm.allotted b)) :
    Paging.allocPage s va flags =
      Paging.mapPage (s.withPmm (s.pmm.allotted b)) va (b * 4096) flags := by
  have hnot : ¬ (Present (s.pde (dirIndex va)) ∧ Present (s.pte (dirIndex va) (tabIndex va))) := by
    intro hc
    rw [walk, walkAt, if_pos hc] at hw
    exact Option.some_ne_none _ hw
  have hnz : b * 4096 ≠ 0 := by
    have := (h.allot hb).2.apart.nonzero
    omega
  rw [Paging.allocPage_eq h.tables.rooted h.enabled hva hok, if_neg hnot, if_neg hnz]

/-- `alloc_page` on an unmapped page maps it to a frame of its own. -/
theorem Sound.allocPage (h : Sound s owned) (hva : va < 0xFFC00000) (hfl : flags < 4096)
    (hpr : Present flags) (hw : walk s va = none) {b : ℕ} (hb : s.pmm.Free b)
    (hok : pmmAllocFrame s.pmm = .ok (b * 4096, s.pmm.allotted b))
    (ha : Present (s.pde (dirIndex va)) ∨ CanAlloc (s.pmm.allotted b)) :
    ∃ s', allocPage s va flags = .ok s' ∧ Sound s' (insert (page va) owned) ∧
      (∃ pde, walk s' va = some (pde, b * 4096 ||| flags)) ∧ SameElsewhere s s' va ∧
      (Filled s → Filled s') ∧ (∀ d < 1023, Present (s.pde d) → s'.pde d = s.pde d) ∧
      s.pmm.usedFrames ⊆ s'.pmm.usedFrames := by
  have hd := dirIndex_lt hva
  obtain ⟨hs₁, hb₁⟩ := h.allot hb
  obtain ⟨s', hmap, hm⟩ := hs₁.mapPage hva (Nat.mul_mod_left b 4096) hfl hpr ha
  have hrun : Paging.allocPage s va flags = .ok s' := (h.allocPage_eq hva hw hb hok).trans hmap
  -- the page cannot have been owned: an owned page is mapped
  have hnew : page va ∉ owned := fun hm => by
    obtain ⟨f, hf⟩ := h.owns.mapped _ hm
    rw [pageFrame, page_div, page_mod] at hf
    change (walk s va).map _ = _ at hf
    rw [hw] at hf
    exact Option.some_ne_none _ hf.symm
  obtain ⟨pde, hhere⟩ := hm.here
  have hframe : pageFrame s' (page va) = some b := by
    rw [pageFrame, page_div, page_mod]
    change (walk s' va).map _ = _
    rw [hhere, Option.map_some, hb₁.frameOf_or hs₁.tables hfl]
  have hsound := hm.sound.own (by rw [page_div]; exact hd) hframe (hm.spare b hb₁)
  rw [Finset.erase_eq_of_notMem hnew] at hsound
  exact ⟨s', hrun, hsound, ⟨pde, hhere⟩, hm.elsewhere, hm.filled, hm.kept,
    (usedFrames_subset_allotted s.pmm b).trans hm.frames⟩

end Map

section Unmap

variable {s : PagingState} {owned : Finset ℕ} {va : ℕ}

/-- The call takes the last present entry of a table below the kernel half. -/
def Last (s : PagingState) (va : ℕ) : Prop :=
  dirIndex va < 768 ∧ s.entries (dirIndex va) = {tabIndex va}

instance (s : PagingState) (va : ℕ) : Decidable (Last s va) := inferInstanceAs (Decidable (_ ∧ _))

/-- The effect of a successful `unmap_page`: the page is gone, and the table's
frame goes back exactly with its last entry. -/
structure Unmapped (s s' : PagingState) (owned' : Finset ℕ) (va : ℕ) : Prop where
  sound : Sound s' owned'
  filled : Filled s'
  here : walk s' va = none
  elsewhere : SameElsewhere s s' va
  kept : ∀ d < 1023, Present (s.pde d) → ¬ (d = dirIndex va ∧ Last s va) → s'.pde d = s.pde d
  dropped : Last s va → s'.pde (dirIndex va) = 0 ∧ s'.pmm.Free (s.table (dirIndex va))
  frames : s'.pmm.usedFrames =
    if Last s va then s.pmm.usedFrames.erase (s.table (dirIndex va)) else s.pmm.usedFrames

theorem walk_eq_none_of_absent (hp : ¬ Present (s.pte (dirIndex va) (tabIndex va))) :
    walk s va = none := by
  rw [walk, walkAt, if_neg fun hc => hp hc.2]

/-- Unmapping a page that is absent from a present table does nothing. -/
theorem Sound.unmapPage_absent (h : Sound s owned) (hf : Filled s) (hva : va < 0xFFC00000)
    (hp : Present (s.pde (dirIndex va))) (hpt : ¬ Present (s.pte (dirIndex va) (tabIndex va))) :
    Paging.unmapPage s va = .ok s ∧ Unmapped s s (owned.erase (page va)) va := by
  have hd := dirIndex_lt hva
  have hnot : ¬ (s.refCounter (dirIndex va) = 0 ∧ dirIndex va < 768) := by
    rintro ⟨h0, hlt⟩
    have hcard := Finset.card_pos.mpr (hf _ hlt hp)
    rw [← h.tables.counted _ hlt hp, h0] at hcard
    exact Nat.lt_irrefl 0 hcard
  have hlast : ¬ Last s va := by
    rintro ⟨-, hl⟩
    have hm : tabIndex va ∈ s.entries (dirIndex va) := by rw [hl]; exact Finset.mem_singleton_self _
    exact hpt (PagingState.mem_entries.mp hm).2
  refine ⟨?_, h.erase _, hf, walk_eq_none_of_absent hpt, fun _ _ _ => rfl, fun _ _ _ _ => rfl,
    fun hl => absurd hl hlast, (if_neg hlast).symm⟩
  rw [unmapPage_eq h.tables.rooted h.enabled hva, if_pos hp, if_neg hpt,
    dropTable_eq h.tables.rooted (by omega), if_neg hnot]

theorem entries_removeEntry {d t : ℕ} (hap : s.table d ≠ s.cr3) :
    (s.removeEntry d t).entries d = (s.entries d).erase t := by
  ext j
  simp only [PagingState.mem_entries, Finset.mem_erase, pte_removeEntry hap, true_and]
  by_cases hj : j = t
  · simp [hj, Present]
  · simp [hj]

/-- The counter of the remaining table is zero exactly when the entry was the last. -/
theorem Sound.refCounter_removeEntry_iff (h : Sound s owned) (hva : va < 0xFFC00000)
    (hp : Present (s.pde (dirIndex va))) (hpt : Present (s.pte (dirIndex va) (tabIndex va)))
    (hlt : dirIndex va < 768) :
    (s.removeEntry (dirIndex va) (tabIndex va)).refCounter (dirIndex va) = 0 ↔ Last s va := by
  have hd := dirIndex_lt hva
  have ht := tabIndex_lt va
  have hap := h.tables.rooted.apart _ hd hp
  have hmem : tabIndex va ∈ s.entries (dirIndex va) := PagingState.mem_entries.mpr ⟨ht, hpt⟩
  have hpr : Present ((s.removeEntry (dirIndex va) (tabIndex va)).pde (dirIndex va)) := by
    rwa [pde_removeEntry hap]
  rw [(h.tables.removeEntry hd ht hp hpt).counted _ hlt hpr, Finset.card_eq_zero,
    entries_removeEntry hap, Finset.erase_eq_empty_iff]
  constructor
  · rintro (h0 | h1)
    · rw [h0] at hmem
      exact absurd hmem (Finset.notMem_empty _)
    · exact ⟨hlt, h1⟩
  · exact fun hl => .inr hl.2

/-- Without the last entry the other tables keep theirs. -/
theorem Filled.removeEntry (hf : Filled s) (h : Tables s) {d t i : ℕ} (hd : d < 1023)
    (hp : Present (s.pde d)) (hi : i < 768) (hne : i ≠ d) (hpi : Present (s.pde i)) :
    ((s.removeEntry d t).entries i).Nonempty := by
  have hap := h.rooted.apart d hd hp
  obtain ⟨j, hj⟩ := hf i hi hpi
  obtain ⟨hj, hpj⟩ := PagingState.mem_entries.mp hj
  refine ⟨j, PagingState.mem_entries.mpr ⟨hj, ?_⟩⟩
  rwa [pte_removeEntry hap, if_neg fun hc =>
    hne ((h.table_eq_iff (by omega) hd hpi hp).mp hc.1)]

theorem Sound.walk_removeEntry (h : Sound s owned) (hva : va < 0xFFC00000)
    (hp : Present (s.pde (dirIndex va))) :
    let r := s.removeEntry (dirIndex va) (tabIndex va)
    walk r va = none ∧ SameElsewhere s r va := by
  have hd := dirIndex_lt hva
  refine ⟨?_, fun w hw hne => ?_⟩
  · rw [walk, walkAt_removeEntry h.tables hd hd hp, if_pos ⟨rfl, rfl⟩]
  · rw [walk, walkAt_removeEntry h.tables hd (dirIndex_lt hw) hp,
      if_neg fun hc => hne (page_eq_iff.mpr hc), walk]

/-- The entry goes and the table stays. -/
theorem Sound.unmapPage_kept (h : Sound s owned) (hf : Filled s) (hva : va < 0xFFC00000)
    (hp : Present (s.pde (dirIndex va))) (hpt : Present (s.pte (dirIndex va) (tabIndex va)))
    (hl : ¬ Last s va) :
    ∃ s', Paging.unmapPage s va = .ok s' ∧ Unmapped s s' (owned.erase (page va)) va := by
  have hd := dirIndex_lt hva
  have hap := h.tables.rooted.apart _ hd hp
  have hr := h.removeEntry hd (tabIndex_lt va) hp hpt
  have hpde := pde_removeEntry (t := tabIndex va) hap
  obtain ⟨hhere, helse⟩ := h.walk_removeEntry hva hp
  have hnz : ¬ ((s.removeEntry (dirIndex va) (tabIndex va)).refCounter (dirIndex va) = 0 ∧
      dirIndex va < 768) :=
    fun hc => hl ((h.refCounter_removeEntry_iff hva hp hpt hc.2).mp hc.1)
  refine ⟨s.removeEntry (dirIndex va) (tabIndex va), ?_, hr, ?_, hhere, helse,
    fun i _ _ _ => hpde i, fun hc => absurd hc hl, (if_neg hl).symm⟩
  · rw [unmapPage_eq h.tables.rooted h.enabled hva, if_pos hp, if_pos hpt,
      dropTable_eq hr.tables.rooted (by omega), if_neg hnz]
  · intro i hi hpi
    rw [hpde] at hpi
    by_cases hid : i = dirIndex va
    · subst hid
      apply Finset.nonempty_iff_ne_empty.mpr
      intro he
      have hcount := hr.tables.counted _ hi (by rwa [hpde])
      rw [he, Finset.card_empty] at hcount
      exact hnz ⟨hcount, hi⟩
    · exact hf.removeEntry h.tables hd hp hi hid hpi

/-- The last entry goes, the directory entry is cleared and the table's frame is free. -/
theorem Sound.unmapPage_last (h : Sound s owned) (hf : Filled s) (hva : va < 0xFFC00000)
    (hp : Present (s.pde (dirIndex va))) (hpt : Present (s.pte (dirIndex va) (tabIndex va)))
    (hl : Last s va) :
    ∃ s', Paging.unmapPage s va = .ok s' ∧ Unmapped s s' (owned.erase (page va)) va := by
  have hd := dirIndex_lt hva
  have hap := h.tables.rooted.apart _ hd hp
  let r := s.removeEntry (dirIndex va) (tabIndex va)
  have hr : Sound r (owned.erase (page va)) := h.removeEntry hd (tabIndex_lt va) hp hpt
  have hpde : ∀ i, r.pde i = s.pde i := pde_removeEntry hap
  have hrt : ∀ i, r.table i = s.table i := table_removeEntry hap
  have hpr : Present (r.pde (dirIndex va)) := by rwa [hpde]
  have hz : r.refCounter (dirIndex va) = 0 := (h.refCounter_removeEntry_iff hva hp hpt hl.1).mpr hl
  obtain ⟨-, hlt⟩ := hr.tables.low _ hl.1 hpr
  have hbit : r.pmm.bit (r.table (dirIndex va)) = true := by
    by_contra hb
    exact hr.tables.used _ hd hpr ⟨hlt, by simpa using hb⟩
  have hempty : r.entries (dirIndex va) = ∅ := by
    rw [entries_removeEntry hap, hl.2]
    exact Finset.erase_singleton _
  let s' := (r.withPmm (r.pmm.release (r.table (dirIndex va)))).setWord r.cr3 (dirIndex va) 0
  have hpde' : ∀ i, s'.pde i = if i = dirIndex va then 0 else s.pde i := by
    intro i
    rw [← hpde]
    exact r.pde_clearDir _ _ _
  obtain ⟨hhere, helse⟩ := h.walk_removeEntry hva hp
  have hw : ∀ w < 0xFFC00000, walk s' w = walk r w := fun w hw =>
    walkAt_dropTable hr.tables hempty (dirIndex_lt hw) (tabIndex_lt w)
  refine ⟨s', ?_, hr.dropTable hl.1 hpr hz, ?_, (hw va hva).trans hhere,
    fun w hlt hne => (hw w hlt).trans (helse w hlt hne), ?_, fun _ => ⟨?_, ?_⟩, ?_⟩
  · rw [unmapPage_eq h.tables.rooted h.enabled hva, if_pos hp, if_pos hpt,
      dropTable_eq hr.tables.rooted (by omega), if_pos ⟨hz, hl.1⟩, pmmFreeFrame_used hlt hbit,
      Outcome.ok_bind]
  · intro i hi hpi
    have hne : i ≠ dirIndex va := by
      rintro rfl
      rw [hpde', if_pos rfl] at hpi
      exact absurd hpi (by decide)
    rw [hpde', if_neg hne] at hpi
    obtain ⟨j, hj⟩ := hf.removeEntry h.tables hd hp hi hne hpi
    obtain ⟨hj, hpj⟩ := PagingState.mem_entries.mp hj
    refine ⟨j, PagingState.mem_entries.mpr ⟨hj, ?_⟩⟩
    -- a table is not the directory, where the entry was cleared
    have hne' := h.tables.rooted.apart i (by omega) hpi
    have htab' : s'.table i = s.table i := by rw [PagingState.table, hpde', if_neg hne]; rfl
    rw [PagingState.pte, hrt] at hpj
    rw [PagingState.pte, htab']
    have hcr : r.cr3 = s.cr3 := rfl
    simp only [s', PagingState.phys_setWord, PagingState.phys_withPmm, hcr]
    rwa [if_neg fun hc => hne' hc.1]
  · intro i _ _ hne
    rw [hpde', if_neg fun hi => hne ⟨hi, hl⟩]
  · rw [hpde', if_pos rfl]
  · rw [← hrt]
    refine ⟨hlt, ?_⟩
    change (r.pmm.release _).bit _ = false
    rw [bit_release]
    simp
  · rw [if_pos hl, ← hrt]
    exact usedFrames_release _ _

theorem Sound.unmapPage_present (h : Sound s owned) (hf : Filled s) (hva : va < 0xFFC00000)
    (hp : Present (s.pde (dirIndex va))) (hpt : Present (s.pte (dirIndex va) (tabIndex va))) :
    ∃ s', Paging.unmapPage s va = .ok s' ∧ Unmapped s s' (owned.erase (page va)) va := by
  by_cases hl : Last s va
  · exact h.unmapPage_last hf hva hp hpt hl
  · exact h.unmapPage_kept hf hva hp hpt hl

theorem Sound.unmapPage (h : Sound s owned) (hf : Filled s) (hva : va < 0xFFC00000)
    (hp : Present (s.pde (dirIndex va))) :
    ∃ s', Paging.unmapPage s va = .ok s' ∧ Unmapped s s' (owned.erase (page va)) va := by
  by_cases hpt : Present (s.pte (dirIndex va) (tabIndex va))
  · exact h.unmapPage_present hf hva hp hpt
  · exact ⟨s, h.unmapPage_absent hf hva hp hpt⟩

theorem present_of_pageFrame {b : ℕ} (hb : pageFrame s (page va) = some b) :
    Present (s.pde (dirIndex va)) ∧ Present (s.pte (dirIndex va) (tabIndex va)) := by
  by_contra hn
  rw [pageFrame, page_div, page_mod, walkAt, if_neg hn] at hb
  exact Option.some_ne_none _ hb.symm

/-- `free_page` on an owned page gives its frame back and goes on as `unmap_page`. -/
theorem Sound.freePage_eq {b : ℕ} (h : Sound s owned) (hva : va < 0xFFC00000)
    (hown : page va ∈ owned) (hb : pageFrame s (page va) = some b) :
    Paging.freePage s va = Paging.unmapPage (s.withPmm (s.pmm.release b)) va := by
  have ha := h.owns.apart _ hown b hb
  have hpp := present_of_pageFrame hb
  have hfr : frameOf (s.pte (dirIndex va) (tabIndex va)) = b := by
    rw [pageFrame, page_div, page_mod, walkAt, if_pos hpp] at hb
    simpa using hb
  rw [Paging.freePage_eq h.tables.rooted h.enabled hva, if_pos hpp.1, if_pos hpp.2, hfr,
    pmmFreeFrame_used ha.lt ha.used, Outcome.ok_bind]

theorem Sound.freePage (h : Sound s owned) (hf : Filled s) (hva : va < 0xFFC00000)
    (hown : page va ∈ owned) :
    ∃ b s', pageFrame s (page va) = some b ∧ Paging.freePage s va = .ok s' ∧
      Unmapped (s.withPmm (s.pmm.release b)) s' (owned.erase (page va)) va := by
  obtain ⟨b, hb⟩ := h.owns.mapped _ hown
  have hs := h.release hown hb
  obtain ⟨s', hun, hu⟩ := hs.unmapPage hf hva (present_of_pageFrame hb).1
  rw [Finset.erase_idem] at hu
  exact ⟨b, s', hb, (h.freePage_eq hva hown hb).trans hun, hu⟩

end Unmap
end KallarOS.Paging
