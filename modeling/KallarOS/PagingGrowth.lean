import KallarOS.PagingRuns

namespace KallarOS.Paging
open Pmm

/-- What `alloc_page` needs of the directory to keep its recursive slot, also when
the frame allocator runs dry. -/
structure Growable (s : PagingState) : Prop where
  rooted : Rooted s
  root_pos : s.cr3 ≠ 0
  root_used : ¬ s.pmm.Free s.cr3
  padded : s.pmm.Padded
  maxBlocks_le : s.pmm.maxBlocks ≤ 2 ^ 20

namespace Growable

variable {s : PagingState} {d t e b va flags : ℕ}

theorem allot (h : Growable s) (b : ℕ) : Growable (s.withPmm (s.pmm.allotted b)) where
  rooted := h.rooted.withPmm _
  root_pos := h.root_pos
  root_used hf := h.root_used (Tables.free_of_allotted hf)
  padded j hj hw := by
    rw [PagingState.pmm_withPmm, PmmState.bit_allotted, h.padded j hj hw, Bool.or_true]
  maxBlocks_le := h.maxBlocks_le

theorem addTable (h : Growable s) (hd : d < 1023) (he : frameOf e ≠ s.cr3) :
    Growable (s.addTable d e) :=
  ⟨h.rooted.addTable hd he, h.root_pos, h.root_used, h.padded, h.maxBlocks_le⟩

/-- An entry may even be put into the directory itself, below its own slot. -/
theorem putEntry (h : Growable s) (hd : d < 1024) (hp : Present (s.pde d))
    (hdt : ¬ (d = 1023 ∧ t = 1023)) (ht : t < 1024) (he : frameOf e ≠ s.cr3) :
    Growable (s.putEntry d t e) := by
  have hrooted : Rooted (s.putEntry d t e) := by
    have hc : Rooted (countEntry s d (s.pte d t)) := h.rooted.congr (by simp) fun _ => by simp
    -- through the recursive slot the page table is the directory itself
    by_cases hd' : d = 1023
    · have hset := hc.setDir (d := t) (e := e) (by omega) fun _ => by simpa using he
      rw [PagingState.cr3_countEntry] at hset
      subst hd'
      rw [PagingState.putEntry, h.rooted.root]
      exact hset
    · have hap := h.rooted.apart d (by omega) hp
      exact h.rooted.congr (by simp [PagingState.putEntry]) fun i => by
        rw [PagingState.putEntry, PagingState.phys_setWord, if_neg fun hi => hap hi.1.symm,
          PagingState.phys_countEntry]
  exact ⟨hrooted, by simpa using h.root_pos, by simpa using h.root_used,
    by simpa using h.padded, by simpa using h.maxBlocks_le⟩

/-- The frame allocator answers with a frame that is not the directory, or with 0. -/
theorem pmmAllocFrame (h : Growable s) :
    ∃ b pmm, pmmAllocFrame s.pmm = .ok (b * 4096, pmm) ∧ Growable (s.withPmm pmm) ∧
      b < 2 ^ 20 ∧ b ≠ s.cr3 := by
  rcases pmmAllocFrame_spec h.padded h.maxBlocks_le with ⟨b, hb, he⟩ | ⟨-, he⟩
  · have hfree := hb.free
    have hmax := h.maxBlocks_le
    refine ⟨b, _, he, h.allot b, by have := hfree.1; omega, ?_⟩
    rintro rfl
    exact h.root_used hfree
  · refine ⟨0, s.pmm, by simpa using he, ?_, by decide, h.root_pos.symm⟩
    exact ⟨h.rooted.withPmm _, h.root_pos, h.root_used, h.padded, h.maxBlocks_le⟩

theorem frameOf_entry {f : ℕ} (hb : b < 2 ^ 20) (hf : f < 4096) : frameOf (b * 4096 ||| f) = b := by
  rw [frameOf_or (Nat.mul_mod_left _ _) hf]
  omega

theorem mapPageEnabled (h : Growable s) (hd : d < 1024) (ht : t < 1024)
    (hdt : ¬ (d = 1023 ∧ t = 1023)) (hb : b < 2 ^ 20) (hroot : b ≠ s.cr3) (hf : flags < 4096) :
    ∃ s', mapPageEnabled s d t (b * 4096) flags = .ok s' ∧ Growable s' := by
  have he : frameOf (b * 4096 ||| flags) ≠ s.cr3 := by rwa [frameOf_entry hb hf]
  by_cases hp : Present (s.pde d)
  · exact ⟨_, mapPageEnabled_present h.rooted hd ht hp _ _, h.putEntry hd hp hdt ht he⟩
  · have hd' : d < 1023 := by
      have : d ≠ 1023 := fun hc => hp (hc ▸ h.rooted.slot)
      omega
    obtain ⟨n, pmm, ha, hg, hn, hnr⟩ := h.pmmAllocFrame
    have hne : frameOf (n * 4096 ||| dirFlags flags) ≠ s.cr3 := by
      rwa [frameOf_entry hn (dirFlags_lt _)]
    have hpres : Present (n * 4096 ||| dirFlags flags) :=
      (present_or (Nat.mul_mod_left _ _) (dirFlags_lt _)).mpr (dirFlags_present _)
    have hpde := pde_addTable (s := s.withPmm pmm) (d := d) hne d
    rw [if_pos rfl] at hpde
    exact ⟨_, mapPageEnabled_absent h.rooted hd' ht hp ha hpres hne,
      (hg.addTable hd' hne).putEntry hd (hpde.symm ▸ hpres) hdt ht he⟩

/-- `alloc_page` returns or panics, and it panics on the page of the recursive slot. -/
theorem allocPage (h : Growable s) (hva : va < 2 ^ 32) (hf : flags < 4096) :
    (∃ m, allocPage s va flags = .error (.panic m)) ∨
      ∃ s', allocPage s va flags = .ok s' ∧ Growable s' ∧ va < 0xFFFFF000 := by
  have hd : dirIndex va < 1024 := by unfold dirIndex; omega
  have ht : tabIndex va < 1024 := tabIndex_lt va
  by_cases hen : s.pagingEnabled
  swap
  · exact .inl ⟨"Paging not enabled!\n", by rw [Paging.allocPage, if_pos hen]⟩
  have hmapped := alreadyMapped_eq h.rooted hd ht
  by_cases hm : Present (s.pde (dirIndex va)) ∧ Present (s.pte (dirIndex va) (tabIndex va))
  · refine .inl ⟨"Virtual address already mapped!\n", ?_⟩
    simp only [Paging.allocPage, hen, hmapped, Outcome.ok_bind, decide_eq_true hm]
    rfl
  -- the page of the recursive slot is mapped, so the call has panicked for it
  have hdt : ¬ (dirIndex va = 1023 ∧ tabIndex va = 1023) := by
    rintro ⟨h1, h2⟩
    apply hm
    rw [h1, h2, PagingState.pte, h.rooted.root]
    exact ⟨h.rooted.slot, h.rooted.slot⟩
  obtain ⟨b, pmm, ha, hg, hb, hroot⟩ := h.pmmAllocFrame
  by_cases h0 : b * 4096 = 0
  · refine .inl ⟨"Out of RAM\n", ?_⟩
    simp only [Paging.allocPage, hen, hmapped, Outcome.ok_bind, decide_eq_false hm, ha, if_pos h0]
    rfl
  obtain ⟨s', hs', hg'⟩ := hg.mapPageEnabled hd ht hdt hb hroot hf
  have hmap : Paging.mapPage (s.withPmm pmm) va (b * 4096) flags = .ok s' := by
    rw [Paging.mapPage, if_pos (show (s.withPmm pmm).pagingEnabled = true from hen)]
    exact hs'
  refine .inr ⟨s', ?_, hg', ?_⟩
  · rw [Paging.allocPage, if_neg (not_not.mpr hen), hmapped, decide_eq_false hm]
    simp only [Outcome.ok_bind, Bool.false_eq_true, if_false, ha, if_neg h0]
    exact hmap
  · unfold dirIndex tabIndex at hdt
    omega

end Growable

section Root

variable {s s' : PagingState} {va d t physAddr flags : ℕ}

theorem vwrite_cr3 {value : ℕ} (h : vwrite s va value = .ok s') : s'.cr3 = s.cr3 := by
  obtain ⟨frame, -, h⟩ := Outcome.bind_eq_ok.mp h
  cases h
  rfl

theorem memsetZero_cr3 {n : ℕ} (h : memsetZero s va n = .ok s') : s'.cr3 = s.cr3 := by
  induction n generalizing s' with
  | zero =>
    cases h
    rfl
  | succ n ih =>
    obtain ⟨s₁, h₁, h⟩ := Outcome.bind_eq_ok.mp h
    rw [vwrite_cr3 h, ih h₁]

theorem ensureTable_cr3 (h : ensureTable s d flags = .ok s') : s'.cr3 = s.cr3 := by
  obtain ⟨pde, -, h⟩ := Outcome.bind_eq_ok.mp h
  split_ifs at h
  · obtain ⟨⟨frame, pmm⟩, -, h⟩ := Outcome.bind_eq_ok.mp h
    obtain ⟨s₁, h₁, h⟩ := Outcome.bind_eq_ok.mp h
    rw [memsetZero_cr3 h, vwrite_cr3 h₁]
  · cases h
    rfl

theorem mapPageEnabled_cr3 (h : mapPageEnabled s d t physAddr flags = .ok s') :
    s'.cr3 = s.cr3 := by
  obtain ⟨s₁, h₁, h⟩ := Outcome.bind_eq_ok.mp h
  obtain ⟨pte, -, h⟩ := Outcome.bind_eq_ok.mp h
  rw [vwrite_cr3 h, PagingState.cr3_countEntry, ensureTable_cr3 h₁]

theorem mapPageDisabled_cr3 (h : mapPageDisabled s d t physAddr flags = .ok s') :
    s'.cr3 = s.cr3 := by
  obtain ⟨pde, -, h⟩ := Outcome.bind_eq_ok.mp h
  simp only at h
  split_ifs at h
  · obtain ⟨⟨frame, pmm⟩, -, h⟩ := Outcome.bind_eq_ok.mp h
    obtain ⟨s₁, h₁, h⟩ := Outcome.bind_eq_ok.mp h
    obtain ⟨s₂, h₂, h⟩ := Outcome.bind_eq_ok.mp h
    obtain ⟨pde', -, h⟩ := Outcome.bind_eq_ok.mp h
    rw [vwrite_cr3 h, vwrite_cr3 h₂, memsetZero_cr3 h₁]
  · obtain ⟨s₁, h₁, h⟩ := Outcome.bind_eq_ok.mp h
    cases h₁
    obtain ⟨pde', -, h⟩ := Outcome.bind_eq_ok.mp h
    exact vwrite_cr3 h

theorem mapPage_cr3 (h : mapPage s va physAddr flags = .ok s') : s'.cr3 = s.cr3 := by
  unfold mapPage at h
  split_ifs at h
  · exact mapPageEnabled_cr3 h
  · exact mapPageDisabled_cr3 h

theorem allocPage_cr3 (h : allocPage s va flags = .ok s') : s'.cr3 = s.cr3 := by
  unfold allocPage at h
  split_ifs at h
  obtain ⟨mapped, -, h⟩ := Outcome.bind_eq_ok.mp h
  split_ifs at h
  obtain ⟨⟨frame, pmm⟩, -, h⟩ := Outcome.bind_eq_ok.mp h
  simp only at h
  split_ifs at h
  have hcr3 := mapPage_cr3 h
  exact hcr3

theorem unmapPage_cr3 (h : unmapPage s va = .ok s') : s'.cr3 = s.cr3 := by
  unfold unmapPage at h
  split_ifs at h
  obtain ⟨pde, -, h⟩ := Outcome.bind_eq_ok.mp h
  split_ifs at h
  obtain ⟨s₁, h₁, h⟩ := Outcome.bind_eq_ok.mp h
  have hentry : s₁.cr3 = s.cr3 := by
    obtain ⟨pte, -, h₁⟩ := Outcome.bind_eq_ok.mp h₁
    split_ifs at h₁
    · obtain ⟨s₂, h₂, h₁⟩ := Outcome.bind_eq_ok.mp h₁
      cases h₁
      have hcr3 := vwrite_cr3 h₂
      exact hcr3
    · cases h₁
      rfl
  unfold dropTable at h
  split_ifs at h
  · obtain ⟨pde', -, h⟩ := Outcome.bind_eq_ok.mp h
    obtain ⟨pmm, -, h⟩ := Outcome.bind_eq_ok.mp h
    rw [vwrite_cr3 h, hentry]
  · cases h
    exact hentry

theorem freePage_cr3 (h : freePage s va = .ok s') : s'.cr3 = s.cr3 := by
  unfold freePage at h
  split_ifs at h
  obtain ⟨pde, -, h⟩ := Outcome.bind_eq_ok.mp h
  split_ifs at h
  obtain ⟨pte, -, h⟩ := Outcome.bind_eq_ok.mp h
  split_ifs at h
  obtain ⟨pmm, -, h⟩ := Outcome.bind_eq_ok.mp h
  rw [unmapPage_cr3 h]

/-- No call moves the directory. -/
theorem Call.exec_cr3 {c : Call} (h : c.exec s = .ok s') : s'.cr3 = s.cr3 := by
  cases c with
  | map => exact mapPage_cr3 h
  | alloc => exact allocPage_cr3 h
  | unmap => exact unmapPage_cr3 h
  | free => exact freePage_cr3 h

theorem Tracked.run_cr3 {k k' : Tracked} (h : Relation.ReflTransGen Tracked.Step k k') :
    k'.state.cr3 = k.state.cr3 := by
  induction h with
  | refl => rfl
  | tail _ hstep ih =>
    cases hstep with
    | call c ha he => exact (Call.exec_cr3 he).trans ih

end Root

theorem Sound.growable {s : PagingState} {owned : Finset ℕ} (h : Sound s owned)
    (hroot : s.cr3 ≠ 0) : Growable s :=
  ⟨h.tables.rooted, hroot, h.tables.root_used, h.tables.padded, h.tables.maxBlocks_le⟩

theorem BootFrames.dir_ne_zero {l : Layout} (f : BootFrames l) : f.dir ≠ 0 := by
  have := l.higherHalf
  have := f.dirStart
  omega

/-- Whatever paging calls came before, the heap can ask for pages. -/
theorem BootFrames.growable {l : Layout} (f : BootFrames l) {ram : ℕ → ℕ → ℕ} {p : PmmState}
    (hgood : (f.start ram p).Good) {k : Tracked}
    (hr : Relation.ReflTransGen Tracked.Step (f.start ram p) k) : Growable k.state := by
  refine (hgood.run hr).sound.growable ?_
  rw [Tracked.run_cr3 hr]
  exact f.dir_ne_zero

end KallarOS.Paging
