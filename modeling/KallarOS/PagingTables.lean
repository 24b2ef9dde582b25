import KallarOS.PagingWalk
import KallarOS.PmmRuns

namespace KallarOS.Paging
open Pmm

namespace PagingState

/-- The present entries of page table `d`. -/
def entries (s : PagingState) (d : ℕ) : Finset ℕ := {t ∈ Finset.range 1024 | Present (s.pte d t)}

theorem mem_entries {s : PagingState} {d t : ℕ} :
    t ∈ s.entries d ↔ t < 1024 ∧ Present (s.pte d t) := by simp [entries]

theorem card_entries_le (s : PagingState) (d : ℕ) : (s.entries d).card ≤ 1024 :=
  (Finset.card_filter_le _ _).trans (Finset.card_range _).le

theorem entries_congr {s s' : PagingState} {d : ℕ} (h : ∀ t < 1024, s'.pte d t = s.pte d t) :
    s'.entries d = s.entries d := by
  ext t
  rw [mem_entries, mem_entries]
  refine and_congr_right fun ht => ?_
  rw [h t ht]

end PagingState

/-- The page tables and the frame allocator agree: the directory and every table
sit in distinct frames that are not free, and below the kernel half the reference
counters count the present entries. -/
structure Tables (s : PagingState) : Prop where
  rooted : Rooted s
  padded : s.pmm.Padded
  maxBlocks_le : s.pmm.maxBlocks ≤ 2 ^ 20
  zero_used : ¬ s.pmm.Free 0
  root_used : ¬ s.pmm.Free s.cr3
  used : ∀ d < 1023, Present (s.pde d) → ¬ s.pmm.Free (s.table d)
  inj : ∀ d < 1023, ∀ d' < 1023, Present (s.pde d) → Present (s.pde d') →
    s.table d = s.table d' → d = d'
  low : ∀ d < 768, Present (s.pde d) → s.table d ≠ 0 ∧ s.table d < s.pmm.maxBlocks
  counted : ∀ d < 768, Present (s.pde d) → s.refCounter d = (s.entries d).card
  uncounted : ∀ d < 768, ¬ Present (s.pde d) → s.refCounter d = 0

section Projections

variable {s : PagingState} {d t e : ℕ}

theorem pde_putEntry (hd : s.table d ≠ s.cr3) (i : ℕ) : (s.putEntry d t e).pde i = s.pde i := by
  have : ¬ (s.cr3 = s.table d ∧ i = t) := fun hc => hd hc.1.symm
  simp [PagingState.pde, PagingState.putEntry, this]

theorem table_putEntry (hd : s.table d ≠ s.cr3) (i : ℕ) :
    (s.putEntry d t e).table i = s.table i := by
  rw [PagingState.table, pde_putEntry hd, PagingState.table]

theorem pte_putEntry (hd : s.table d ≠ s.cr3) (i j : ℕ) :
    (s.putEntry d t e).pte i j = if s.table i = s.table d ∧ j = t then e else s.pte i j := by
  rw [PagingState.pte, table_putEntry hd]
  simp [PagingState.putEntry, PagingState.pte]

@[simp] theorem pmm_putEntry : (s.putEntry d t e).pmm = s.pmm := by simp [PagingState.putEntry]

@[simp] theorem cr3_putEntry : (s.putEntry d t e).cr3 = s.cr3 := by simp [PagingState.putEntry]

@[simp] theorem pagingEnabled_putEntry :
    (s.putEntry d t e).pagingEnabled = s.pagingEnabled := by simp [PagingState.putEntry]

theorem refCounter_putEntry (i : ℕ) :
    (s.putEntry d t e).refCounter i =
      if i = d ∧ ¬ Present (s.pte d t) then (s.refCounter d + 1) % 2 ^ 16 else s.refCounter i := by
  simp only [PagingState.putEntry, PagingState.refCounter_setWord, countEntry]
  by_cases hp : Present (s.pte d t)
  · rw [if_neg fun h0 => and_ptePresent_eq_zero.mp h0 hp, if_neg fun hc => hc.2 hp]
  · rw [if_pos (and_ptePresent_eq_zero.mpr hp)]
    by_cases hi : i = d
    · simp [hi, hp]
    · simp [hi]

/-- Clearing an entry moves the same words as entering one. -/
theorem phys_removeEntry : (s.removeEntry d t).phys = (s.putEntry d t 0).phys := by
  simp [PagingState.removeEntry, PagingState.putEntry, PagingState.setWord]

theorem pde_removeEntry (hd : s.table d ≠ s.cr3) (i : ℕ) : (s.removeEntry d t).pde i = s.pde i := by
  have h := pde_putEntry (t := t) (e := 0) hd i
  simp only [PagingState.pde, cr3_putEntry, ← phys_removeEntry] at h
  exact h

theorem table_removeEntry (hd : s.table d ≠ s.cr3) (i : ℕ) :
    (s.removeEntry d t).table i = s.table i := by
  rw [PagingState.table, pde_removeEntry hd, PagingState.table]

theorem pte_removeEntry (hd : s.table d ≠ s.cr3) (i j : ℕ) :
    (s.removeEntry d t).pte i j = if s.table i = s.table d ∧ j = t then 0 else s.pte i j := by
  rw [← pte_putEntry hd, PagingState.pte, PagingState.pte, table_removeEntry hd, table_putEntry hd,
    phys_removeEntry]

theorem refCounter_removeEntry (i : ℕ) :
    (s.removeEntry d t).refCounter i =
      if i = d then (s.refCounter d + 0xFFFF) % 2 ^ 16 else s.refCounter i := by
  simp [PagingState.removeEntry, Function.update_apply]

theorem table_addTable (he : frameOf e ≠ s.cr3) (i : ℕ) :
    (s.addTable d e).table i = if i = d then frameOf e else s.table i := by
  rw [PagingState.table, pde_addTable he]
  split_ifs <;> rfl

/-- The new table is empty and the other tables keep their entries. -/
theorem pte_addTable (he : frameOf e ≠ s.cr3) {i j : ℕ} (hj : j < 1024)
    (hi : i ≠ d → frameOf e ≠ s.table i ∧ s.table i ≠ s.cr3) :
    (s.addTable d e).pte i j = if i = d then 0 else s.pte i j := by
  rw [PagingState.pte, table_addTable he]
  split_ifs with h
  · simp [PagingState.addTable, PagingState.zeroed, hj]
  · simp [PagingState.addTable, PagingState.zeroed, (hi h).1.symm, (hi h).2, PagingState.pte]

end Projections

namespace Tables

variable {s : PagingState} {d t e b : ℕ}

/-- A free frame is neither the directory nor a page table. -/
theorem free_apart (h : Tables s) (hb : s.pmm.Free b) :
    b ≠ 0 ∧ b ≠ s.cr3 ∧ ∀ d < 1023, Present (s.pde d) → b ≠ s.table d := by
  refine ⟨?_, ?_, fun d hd hp => ?_⟩
  · rintro rfl
    exact h.zero_used hb
  · rintro rfl
    exact h.root_used hb
  · rintro rfl
    exact h.used d hd hp hb

theorem free_of_allotted {p : PmmState} {j : ℕ} (h : (p.allotted b).Free j) : p.Free j := by
  obtain ⟨hlt, hj⟩ := h
  rw [PmmState.bit_allotted, Bool.or_eq_false_iff] at hj
  exact ⟨hlt, hj.2⟩

theorem not_free_allotted (p : PmmState) (b : ℕ) : ¬ (p.allotted b).Free b := by
  rintro ⟨-, hb⟩
  rw [PmmState.bit_allotted] at hb
  simp at hb

theorem free_allotted {p : PmmState} {c : ℕ} (hne : c ≠ b) (hc : p.Free c) :
    (p.allotted b).Free c := by
  refine ⟨hc.1, ?_⟩
  rw [PmmState.bit_allotted, hc.2, Bool.or_false]
  exact decide_eq_false hne

theorem allot (h : Tables s) (b : ℕ) : Tables (s.withPmm (s.pmm.allotted b)) where
  rooted := h.rooted.withPmm _
  padded j hj hw := by
    rw [PagingState.pmm_withPmm, PmmState.bit_allotted, h.padded j hj hw, Bool.or_true]
  maxBlocks_le := h.maxBlocks_le
  zero_used hf := h.zero_used (free_of_allotted hf)
  root_used hf := h.root_used (free_of_allotted hf)
  used i hi hp hf := h.used i hi hp (free_of_allotted hf)
  inj := h.inj
  low := h.low
  counted := h.counted
  uncounted := h.uncounted

theorem addTable (h : Tables s) (hd : d < 1023) (hn : ¬ Present (s.pde d)) (he : Present e)
    (hroot : frameOf e ≠ s.cr3) (hfresh : ∀ i < 1023, Present (s.pde i) → frameOf e ≠ s.table i)
    (hused : ¬ s.pmm.Free (frameOf e)) (hlow : frameOf e ≠ 0 ∧ frameOf e < s.pmm.maxBlocks) :
    Tables (s.addTable d e) := by
  have hpde := pde_addTable (s := s) (d := d) hroot
  have htab := table_addTable (s := s) (d := d) hroot
  -- what was present and is not the new table was present before
  have hold : ∀ i, i ≠ d → Present ((s.addTable d e).pde i) → Present (s.pde i) := by
    intro i hi hp
    rwa [hpde, if_neg hi] at hp
  have hpte : ∀ i < 1023, i ≠ d → Present (s.pde i) → ∀ j < 1024,
      (s.addTable d e).pte i j = s.pte i j := by
    intro i hi hne hp j hj
    rw [pte_addTable hroot hj fun _ => ⟨hfresh i hi hp, h.rooted.apart i hi hp⟩, if_neg hne]
  refine ⟨h.rooted.addTable hd hroot, h.padded, h.maxBlocks_le, h.zero_used, h.root_used, ?_, ?_,
    ?_, ?_, ?_⟩
  · intro i hi hp
    rw [htab]
    split_ifs with hid
    · exact hused
    · exact h.used i hi (hold i hid hp)
  · intro i hi j hj hpi hpj hij
    rw [htab, htab] at hij
    by_cases hid : i = d
    · by_cases hjd : j = d
      · rw [hid, hjd]
      · rw [if_pos hid, if_neg hjd] at hij
        exact absurd hij (hfresh j hj (hold j hjd hpj))
    · by_cases hjd : j = d
      · rw [if_neg hid, if_pos hjd] at hij
        exact absurd hij.symm (hfresh i hi (hold i hid hpi))
      · rw [if_neg hid, if_neg hjd] at hij
        exact h.inj i hi j hj (hold i hid hpi) (hold j hjd hpj) hij
  · intro i hi hp
    rw [htab]
    split_ifs with hid
    · exact hlow
    · exact h.low i hi (hold i hid hp)
  · intro i hi hp
    by_cases hid : i = d
    · subst hid
      have hempty : (s.addTable i e).entries i = ∅ := by
        ext j
        simp only [PagingState.mem_entries, Finset.notMem_empty, iff_false, not_and]
        intro hj
        rw [pte_addTable hroot hj fun hc => absurd rfl hc, if_pos rfl]
        decide
      rw [hempty, Finset.card_empty]
      exact h.uncounted i hi hn
    · rw [PagingState.entries_congr (hpte i (by omega) hid (hold i hid hp))]
      exact h.counted i hi (hold i hid hp)
  · intro i hi hp
    have hid : i ≠ d := by
      rintro rfl
      rw [hpde, if_pos rfl] at hp
      exact hp he
    rw [hpde, if_neg hid] at hp
    exact h.uncounted i hi hp

/-- Two present tables share their frame only if they are the same table. -/
theorem table_eq_iff (h : Tables s) {i : ℕ} (hi : i < 1023) (hd : d < 1023)
    (hpi : Present (s.pde i)) (hpd : Present (s.pde d)) : s.table i = s.table d ↔ i = d :=
  ⟨h.inj i hi d hd hpi hpd, fun e => by rw [e]⟩

/-- A change inside a page table moves no directory entry and no frame: only the counters
have to be compared again. -/
theorem recount {s' : PagingState} (h : Tables s) (hcr3 : s'.cr3 = s.cr3) (hpmm : s'.pmm = s.pmm)
    (hpde : ∀ i, s'.pde i = s.pde i)
    (hcounted : ∀ i < 768, Present (s.pde i) → s'.refCounter i = (s'.entries i).card)
    (huncounted : ∀ i < 768, ¬ Present (s.pde i) → s'.refCounter i = 0) : Tables s' := by
  have htab : ∀ i, s'.table i = s.table i := by
    intro i
    rw [PagingState.table, hpde, PagingState.table]
  refine ⟨h.rooted.congr hcr3 fun i => ?_, ?_, ?_, ?_, ?_, ?_, ?_, ?_, ?_, ?_⟩
  · have := hpde i
    rwa [PagingState.pde, hcr3] at this
  · rw [hpmm]
    exact h.padded
  · rw [hpmm]
    exact h.maxBlocks_le
  · rw [hpmm]
    exact h.zero_used
  · rw [hpmm, hcr3]
    exact h.root_used
  · intro i hi hpi
    rw [hpde] at hpi
    rw [hpmm, htab]
    exact h.used i hi hpi
  · intro i hi j hj hpi hpj hij
    rw [hpde] at hpi hpj
    rw [htab, htab] at hij
    exact h.inj i hi j hj hpi hpj hij
  · intro i hi hpi
    rw [hpde] at hpi
    rw [hpmm, htab]
    exact h.low i hi hpi
  · intro i hi hpi
    rw [hpde] at hpi
    exact hcounted i hi hpi
  · intro i hi hpi
    rw [hpde] at hpi
    exact huncounted i hi hpi

theorem putEntry (h : Tables s) (hd : d < 1023) (ht : t < 1024) (hp : Present (s.pde d))
    (he : Present e) : Tables (s.putEntry d t e) := by
  have hap := h.rooted.apart d hd hp
  apply h.recount cr3_putEntry pmm_putEntry (pde_putEntry hap)
  · intro i hi hpi
    have hcount := h.counted i hi hpi
    rw [refCounter_putEntry]
    by_cases hid : i = d
    · subst hid
      have hins : (s.putEntry i t e).entries i = insert t (s.entries i) := by
        ext j
        simp only [PagingState.mem_entries, Finset.mem_insert, pte_putEntry hap, true_and]
        by_cases hj : j = t
        · simp [hj, ht, he]
        · simp [hj]
      rw [hins]
      by_cases hpt : Present (s.pte i t)
      · rw [if_neg fun hc => hc.2 hpt,
          Finset.insert_eq_of_mem (PagingState.mem_entries.mpr ⟨ht, hpt⟩), hcount]
      · have hle := s.card_entries_le i
        have hnot : t ∉ s.entries i := fun hm => hpt (PagingState.mem_entries.mp hm).2
        rw [if_pos ⟨rfl, hpt⟩, Finset.card_insert_of_notMem hnot, hcount]
        omega
    · have hpte : ∀ j < 1024, (s.putEntry d t e).pte i j = s.pte i j := by
        intro j _
        rw [pte_putEntry hap,
          if_neg fun hc => hid ((h.table_eq_iff (by omega) hd hpi hp).mp hc.1)]
      rw [if_neg fun hc => hid hc.1, hcount, PagingState.entries_congr hpte]
  · intro i hi hpi
    have hid : i ≠ d := fun hid => hpi (hid ▸ hp)
    rw [refCounter_putEntry, if_neg fun hc => hid hc.1]
    exact h.uncounted i hi hpi

theorem removeEntry (h : Tables s) (hd : d < 1023) (ht : t < 1024) (hp : Present (s.pde d))
    (hpt : Present (s.pte d t)) : Tables (s.removeEntry d t) := by
  have hap := h.rooted.apart d hd hp
  have hcr3 : (s.removeEntry d t).cr3 = s.cr3 := rfl
  apply h.recount hcr3 rfl (pde_removeEntry hap)
  · intro i hi hpi
    have hcount := h.counted i hi hpi
    rw [refCounter_removeEntry]
    by_cases hid : i = d
    · subst hid
      have hmem : t ∈ s.entries i := PagingState.mem_entries.mpr ⟨ht, hpt⟩
      have hers : (s.removeEntry i t).entries i = (s.entries i).erase t := by
        ext j
        simp only [PagingState.mem_entries, Finset.mem_erase, pte_removeEntry hap, true_and]
        by_cases hj : j = t
        · simp [hj, Present]
        · simp [hj]
      have hpos := Finset.card_pos.mpr ⟨t, hmem⟩
      have hle := s.card_entries_le i
      rw [hers, if_pos rfl, Finset.card_erase_of_mem hmem, hcount]
      omega
    · have hpte : ∀ j < 1024, (s.removeEntry d t).pte i j = s.pte i j := by
        intro j _
        rw [pte_removeEntry hap,
          if_neg fun hc => hid ((h.table_eq_iff (by omega) hd hpi hp).mp hc.1)]
      rw [if_neg hid, hcount, PagingState.entries_congr hpte]
  · intro i hi hpi
    have hid : i ≠ d := fun hid => hpi (hid ▸ hp)
    rw [refCounter_removeEntry, if_neg hid]
    exact h.uncounted i hi hpi

theorem free_of_release {p : PmmState} {j : ℕ} (h : (p.release b).Free j) (hj : j ≠ b) : p.Free j := by
  obtain ⟨hlt, hb⟩ := h
  rw [bit_release, decide_eq_false hj] at hb
  exact ⟨hlt, by simpa using hb⟩

theorem padded_release {p : PmmState} (h : p.Padded) (hb : b < p.maxBlocks) :
    (p.release b).Padded := by
  intro j hj hw
  have hne : j ≠ b := fun e => by
    rw [maxBlocks_release] at hj
    omega
  rw [bit_release, h j hj hw, decide_eq_false hne]
  rfl

/-- A frame that is no table can be given back. -/
theorem release (h : Tables s) (hlt : b < s.pmm.maxBlocks) (h0 : b ≠ 0) (hroot : b ≠ s.cr3)
    (htab : ∀ d < 1023, Present (s.pde d) → b ≠ s.table d) :
    Tables (s.withPmm (s.pmm.release b)) where
  rooted := h.rooted.withPmm _
  padded := padded_release h.padded hlt
  maxBlocks_le := h.maxBlocks_le
  zero_used hf := h.zero_used (free_of_release hf h0.symm)
  root_used hf := h.root_used (free_of_release hf hroot.symm)
  used i hi hp hf := h.used i hi hp (free_of_release hf (htab i hi hp).symm)
  inj := h.inj
  low := h.low
  counted := h.counted
  uncounted := h.uncounted

/-- An unreferenced table leaves the directory and its frame goes back. -/
theorem dropTable (h : Tables s) (hd : d < 768) (hp : Present (s.pde d))
    (hz : s.refCounter d = 0) :
    Tables ((s.withPmm (s.pmm.release (s.table d))).setWord s.cr3 d 0) := by
  obtain ⟨hne0, hlt⟩ := h.low d hd hp
  have hap := h.rooted.apart d (by omega) hp
  let s' := (s.withPmm (s.pmm.release (s.table d))).setWord s.cr3 d 0
  have hpde : ∀ i, s'.pde i = if i = d then 0 else s.pde i :=
    s.pde_clearDir (s.pmm.release (s.table d)) d
  have habs : ¬ Present 0 := by decide
  have hold : ∀ i, Present (s'.pde i) → i ≠ d ∧ Present (s.pde i) := by
    intro i hpi
    rw [hpde] at hpi
    split_ifs at hpi with hid
    · exact absurd hpi habs
    · exact ⟨hid, hpi⟩
  have htab : ∀ i, i ≠ d → s'.table i = s.table i := by
    intro i hid
    rw [PagingState.table, hpde, if_neg hid, PagingState.table]
  have hpte : ∀ i < 1023, i ≠ d → Present (s.pde i) → ∀ j, s'.pte i j = s.pte i j := by
    intro i hi hid hpi j
    have hne := h.rooted.apart i hi hpi
    rw [PagingState.pte, htab i hid]
    simp [s', hne, PagingState.pte]
  refine ⟨(h.rooted.withPmm _).setDir (by omega) fun hc => absurd hc habs,
    padded_release h.padded hlt, h.maxBlocks_le,
    fun hf => h.zero_used (free_of_release hf hne0.symm),
    fun hf => h.root_used (free_of_release hf hap.symm), ?_, ?_, ?_, ?_, ?_⟩
  · intro i hi hpi hf
    obtain ⟨hid, hpi⟩ := hold i hpi
    rw [htab i hid] at hf
    refine h.used i hi hpi (free_of_release hf fun heq => hid ?_)
    exact h.inj i hi d (by omega) hpi hp heq
  · intro i hi j hj hpi hpj hij
    obtain ⟨hid, hpi⟩ := hold i hpi
    obtain ⟨hjd, hpj⟩ := hold j hpj
    rw [htab i hid, htab j hjd] at hij
    exact h.inj i hi j hj hpi hpj hij
  · intro i hi hpi
    obtain ⟨hid, hpi⟩ := hold i hpi
    rw [htab i hid]
    exact h.low i hi hpi
  · intro i hi hpi
    obtain ⟨hid, hpi⟩ := hold i hpi
    rw [PagingState.entries_congr fun j _ => hpte i (by omega) hid hpi j]
    exact h.counted i hi hpi
  · intro i hi hpi
    rw [hpde] at hpi
    split_ifs at hpi with hid
    · rw [hid]
      exact hz
    · exact h.uncounted i hi hpi

end Tables
end KallarOS.Paging
