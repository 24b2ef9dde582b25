import KallarOS.PagingTables

namespace KallarOS.Paging
open Pmm

section Walks

variable {s : PagingState} {d t e i j : ℕ}

theorem walkAt_congr {s' : PagingState} (hpde : s'.pde i = s.pde i)
    (hpte : Present (s.pde i) → (s'.pte i j = s.pte i j ∨ ¬ Present (s'.pte i j) ∧ ¬ Present (s.pte i j))) :
    walkAt s' i j = walkAt s i j := by
  unfold walkAt
  rw [hpde]
  by_cases hp : Present (s.pde i)
  · rcases hpte hp with h | ⟨h1, h2⟩
    · rw [h]
    · simp [h1, h2]
  · simp [hp]

theorem walkAt_putEntry (h : Tables s) (hd : d < 1023) (hi : i < 1023) (hp : Present (s.pde d))
    (he : Present e) :
    walkAt (s.putEntry d t e) i j =
      if i = d ∧ j = t then some (s.pde d, e) else walkAt s i j := by
  have hap := h.rooted.apart d hd hp
  have hpde := pde_putEntry (t := t) (e := e) hap
  split_ifs with hc
  · obtain ⟨rfl, rfl⟩ := hc
    have hpte : (s.putEntry i j e).pte i j = e := by rw [pte_putEntry hap, if_pos ⟨rfl, rfl⟩]
    rw [walkAt, hpde, hpte, if_pos ⟨hp, he⟩]
  · refine walkAt_congr (hpde i) fun hpi => .inl ?_
    rw [pte_putEntry hap, if_neg]
    rintro ⟨h1, h2⟩
    exact hc ⟨h.inj i hi d hd hpi hp h1, h2⟩

theorem walkAt_removeEntry (h : Tables s) (hd : d < 1023) (hi : i < 1023) (hp : Present (s.pde d)) :
    walkAt (s.removeEntry d t) i j = if i = d ∧ j = t then none else walkAt s i j := by
  have hap := h.rooted.apart d hd hp
  split_ifs with hc
  · obtain ⟨rfl, rfl⟩ := hc
    have hpte : (s.removeEntry i j).pte i j = 0 := by rw [pte_removeEntry hap, if_pos ⟨rfl, rfl⟩]
    have habs : ¬ Present 0 := by decide
    rw [walkAt, hpte, if_neg fun hc => habs hc.2]
  · refine walkAt_congr (pde_removeEntry hap i) fun hpi => .inl ?_
    rw [pte_removeEntry hap, if_neg]
    rintro ⟨h1, h2⟩
    exact hc ⟨h.inj i hi d hd hpi hp h1, h2⟩

/-- A new table maps nothing, so no translation changes. -/
theorem walkAt_addTable (h : Tables s) (hn : ¬ Present (s.pde d)) (hroot : frameOf e ≠ s.cr3)
    (hfresh : ∀ i < 1023, Present (s.pde i) → frameOf e ≠ s.table i) (hi : i < 1023)
    (hj : j < 1024) : walkAt (s.addTable d e) i j = walkAt s i j := by
  by_cases hid : i = d
  · subst hid
    have hpte : (s.addTable i e).pte i j = 0 := by
      rw [pte_addTable hroot hj fun hc => absurd rfl hc, if_pos rfl]
    have habs : ¬ Present 0 := by decide
    rw [walkAt, hpte, if_neg fun hc => habs hc.2, walkAt, if_neg fun hc => hn hc.1]
  · refine walkAt_congr (by rw [pde_addTable hroot, if_neg hid]) fun hpi => .inl ?_
    rw [pte_addTable hroot hj fun _ => ⟨hfresh i hi hpi, h.rooted.apart i hi hpi⟩, if_neg hid]

/-- An empty table maps nothing, so dropping it changes no translation. -/
theorem walkAt_dropTable (h : Tables s) {pmm : PmmState} (he : s.entries d = ∅) (hi : i < 1023)
    (hj : j < 1024) : walkAt ((s.withPmm pmm).setWord s.cr3 d 0) i j = walkAt s i j := by
  have hpde := s.pde_clearDir pmm d
  have habs : ¬ Present 0 := by decide
  by_cases hid : i = d
  · subst hid
    -- before the drop the walk of this table failed at the second entry, now at the first
    have hno : ¬ Present (s.pte i j) := fun hp => by
      have := PagingState.mem_entries.mpr ⟨hj, hp⟩
      rw [he] at this
      exact Finset.notMem_empty j this
    have hp0 : ((s.withPmm pmm).setWord s.cr3 i 0).pde i = 0 := by rw [hpde, if_pos rfl]
    rw [walkAt, hp0, if_neg fun hc => habs hc.1, walkAt, if_neg fun hc => hno hc.2]
  · have hpi : ((s.withPmm pmm).setWord s.cr3 d 0).pde i = s.pde i := by
      rw [hpde, if_neg hid]
    refine walkAt_congr hpi fun hp => .inl ?_
    rw [PagingState.pte, PagingState.table, hpi]
    have hne := h.rooted.apart i hi hp
    rw [PagingState.table] at hne
    simp [hne, PagingState.pte, PagingState.table]

end Walks

/-- The frame behind virtual page `v`, when it is mapped. -/
def pageFrame (s : PagingState) (v : ℕ) : Option ℕ :=
  (walkAt s (v / 1024) (v % 1024)).map fun w => frameOf w.2

/-- Frame `b` is taken from the allocator and serves as nothing else. -/
structure Apart (s : PagingState) (b : ℕ) : Prop where
  nonzero : b ≠ 0
  lt : b < s.pmm.maxBlocks
  used : s.pmm.bit b = true
  root : b ≠ s.cr3
  tables : ∀ d < 1023, Present (s.pde d) → b ≠ s.table d

/-- The pages in `owned` hold a frame of their own each, from the allocator. -/
structure Owns (s : PagingState) (owned : Finset ℕ) : Prop where
  small : ∀ v ∈ owned, v / 1024 < 1023
  mapped : ∀ v ∈ owned, ∃ f, pageFrame s v = some f
  apart : ∀ v ∈ owned, ∀ f, pageFrame s v = some f → Apart s f
  inj : ∀ v ∈ owned, ∀ v' ∈ owned, ∀ f, pageFrame s v = some f → pageFrame s v' = some f → v = v'

/-- What holds between two calls. -/
structure Sound (s : PagingState) (owned : Finset ℕ) : Prop where
  enabled : s.pagingEnabled = true
  tables : Tables s
  owns : Owns s owned

/-- A frame just allocated: not yet a table, not yet behind an owned page. -/
structure Spare (s : PagingState) (owned : Finset ℕ) (b : ℕ) : Prop where
  apart : Apart s b
  unowned : ∀ v ∈ owned, pageFrame s v ≠ some b

section Transfer

variable {s s' : PagingState} {owned owned' : Finset ℕ} {d t e b : ℕ}

/-- Ownership survives every change that keeps the owned pages' frames apart. -/
theorem Owns.mono (h : Owns s owned) (hsub : owned' ⊆ owned)
    (hframe : ∀ v ∈ owned', pageFrame s' v = pageFrame s v)
    (hap : ∀ v ∈ owned', ∀ f, pageFrame s v = some f → Apart s f → Apart s' f) :
    Owns s' owned' where
  small v hv := h.small v (hsub hv)
  mapped v hv := (hframe v hv).symm ▸ h.mapped v (hsub hv)
  apart v hv f hf := by
    rw [hframe v hv] at hf
    exact hap v hv f hf (h.apart v (hsub hv) f hf)
  inj v hv v' hv' f hf hf' := by
    rw [hframe v hv] at hf
    rw [hframe v' hv'] at hf'
    exact h.inj v (hsub hv) v' (hsub hv') f hf hf'

theorem Apart.of_putEntry (hp : s.table d ≠ s.cr3) (h : Apart s b) : Apart (s.putEntry d t e) b where
  nonzero := h.nonzero
  lt := by rw [pmm_putEntry]; exact h.lt
  used := by rw [pmm_putEntry]; exact h.used
  root := by rw [cr3_putEntry]; exact h.root
  tables i hi hpi := by
    rw [pde_putEntry hp] at hpi
    rw [table_putEntry hp]
    exact h.tables i hi hpi

theorem Apart.of_removeEntry (hp : s.table d ≠ s.cr3) (h : Apart s b) : Apart (s.removeEntry d t) b where
  nonzero := h.nonzero
  lt := h.lt
  used := h.used
  root := h.root
  tables i hi hpi := by
    rw [pde_removeEntry hp] at hpi
    rw [table_removeEntry hp]
    exact h.tables i hi hpi

theorem Apart.of_addTable (he : frameOf e ≠ s.cr3) (hb : b ≠ frameOf e) (h : Apart s b) :
    Apart (s.addTable d e) b where
  nonzero := h.nonzero
  lt := h.lt
  used := h.used
  root := h.root
  tables i hi hpi := by
    rw [pde_addTable he] at hpi
    rw [table_addTable he]
    split_ifs at hpi ⊢
    · exact hb
    · exact h.tables i hi hpi

theorem Apart.of_allot (h : Apart s b) (c : ℕ) : Apart (s.withPmm (s.pmm.allotted c)) b where
  nonzero := h.nonzero
  lt := h.lt
  used := by rw [PagingState.pmm_withPmm, PmmState.bit_allotted, h.used, Bool.or_true]
  root := h.root
  tables := h.tables

theorem Apart.of_release {c : ℕ} (hc : b ≠ c) (h : Apart s b) :
    Apart (s.withPmm (s.pmm.release c)) b where
  nonzero := h.nonzero
  lt := h.lt
  used := by
    rw [PagingState.pmm_withPmm, bit_release, h.used, decide_eq_false hc]
    rfl
  root := h.root
  tables := h.tables

theorem Apart.of_dropTable (hd : d < 1023) (hp : Present (s.pde d)) (h : Apart s b) :
    Apart ((s.withPmm (s.pmm.release (s.table d))).setWord s.cr3 d 0) b where
  nonzero := h.nonzero
  lt := h.lt
  used := (h.of_release (h.tables d hd hp)).used
  root := h.root
  tables i hi hpi := by
    have hpde := s.pde_clearDir (s.pmm.release (s.table d)) d i
    have habs : ¬ Present 0 := by decide
    rw [hpde] at hpi
    rw [PagingState.table, hpde]
    split_ifs at hpi ⊢ with hid
    · exact absurd hpi habs
    · exact h.tables i hi hpi

/-- Taking a free frame leaves everything in place and makes it spare. -/
theorem Sound.allot (h : Sound s owned) (hb : s.pmm.Free b) :
    Sound (s.withPmm (s.pmm.allotted b)) owned ∧
      Spare (s.withPmm (s.pmm.allotted b)) owned b := by
  obtain ⟨h0, hroot, htab⟩ := h.tables.free_apart hb
  have howns : Owns (s.withPmm (s.pmm.allotted b)) owned :=
    h.owns.mono (subset_refl _) (fun _ _ => rfl) fun _ _ _ _ ha => ha.of_allot b
  refine ⟨⟨h.enabled, h.tables.allot b, howns⟩, ⟨h0, hb.1, ?_, hroot, htab⟩, fun v hv hf => ?_⟩
  · rw [PagingState.pmm_withPmm, PmmState.bit_allotted]
    simp
  -- an owned page's frame is marked used, and `b` was free
  · have hu := (h.owns.apart v hv b hf).used
    rw [hb.2] at hu
    exact Bool.noConfusion hu

theorem Spare.of_allot {c : ℕ} (h : Spare s owned b) : Spare (s.withPmm (s.pmm.allotted c)) owned b :=
  ⟨h.apart.of_allot c, h.unowned⟩

theorem Spare.not_free (h : Spare s owned b) : ¬ s.pmm.Free b := fun hf => by
  have := h.apart.used
  rw [hf.2] at this
  exact Bool.noConfusion this

/-- A spare frame becomes a page table; other spare frames stay spare. -/
theorem Sound.addTable (h : Sound s owned) (hd : d < 1023) (hn : ¬ Present (s.pde d))
    (he : Present e) (hs : Spare s owned (frameOf e)) :
    Sound (s.addTable d e) owned ∧
      (∀ i < 1023, ∀ j < 1024, walkAt (s.addTable d e) i j = walkAt s i j) ∧
      ∀ c, c ≠ frameOf e → Spare s owned c → Spare (s.addTable d e) owned c := by
  have hw : ∀ i < 1023, ∀ j < 1024, walkAt (s.addTable d e) i j = walkAt s i j :=
    fun i hi j hj => walkAt_addTable h.tables hn hs.apart.root hs.apart.tables hi hj
  have hframe : ∀ v ∈ owned, pageFrame (s.addTable d e) v = pageFrame s v := fun v hv => by
    rw [pageFrame, hw _ (h.owns.small v hv) _ (Nat.mod_lt _ (by decide)), pageFrame]
  refine ⟨⟨h.enabled, ?_, ?_⟩, hw, fun c hc hsc => ?_⟩
  · exact h.tables.addTable hd hn he hs.apart.root hs.apart.tables hs.not_free
      ⟨hs.apart.nonzero, hs.apart.lt⟩
  · refine h.owns.mono (subset_refl _) hframe fun v hv f hf ha => ?_
    exact ha.of_addTable hs.apart.root fun hc => hs.unowned v hv (hc ▸ hf)
  · exact ⟨hsc.apart.of_addTable hs.apart.root hc, fun v hv => hframe v hv ▸ hsc.unowned v hv⟩

theorem page_split {v : ℕ} (hd : v / 1024 = d) (ht : v % 1024 = t) : v = 1024 * d + t := by omega

/-- A page entry is written; the page no longer counts as owned. -/
theorem Sound.putEntry (h : Sound s owned) (hd : d < 1023) (ht : t < 1024)
    (hp : Present (s.pde d)) (he : Present e) :
    Sound (s.putEntry d t e) (owned.erase (1024 * d + t)) ∧
      ∀ c, Spare s owned c → Spare (s.putEntry d t e) (owned.erase (1024 * d + t)) c := by
  have hap := h.tables.rooted.apart d hd hp
  have hframe : ∀ v ∈ owned.erase (1024 * d + t), pageFrame (s.putEntry d t e) v = pageFrame s v := by
    intro v hv
    obtain ⟨hne, hv⟩ := Finset.mem_erase.mp hv
    rw [pageFrame, walkAt_putEntry h.tables hd (h.owns.small v hv) hp he,
      if_neg fun hc => hne (page_split hc.1 hc.2), pageFrame]
  refine ⟨⟨by rw [pagingEnabled_putEntry, h.enabled], h.tables.putEntry hd ht hp he, ?_⟩,
    fun c hc => ?_⟩
  · exact h.owns.mono (Finset.erase_subset _ _) hframe fun _ _ _ _ ha => ha.of_putEntry hap
  · refine ⟨hc.apart.of_putEntry hap, fun v hv => ?_⟩
    rw [hframe v hv]
    exact hc.unowned v (Finset.mem_of_mem_erase hv)

/-- A page whose frame is spare may be added to the owned ones. -/
theorem Sound.own {v : ℕ} (h : Sound s owned) (hv : v / 1024 < 1023) (hf : pageFrame s v = some b)
    (hs : Spare s owned b) : Sound s (insert v owned) where
  enabled := h.enabled
  tables := h.tables
  owns :=
    { small := fun w hw => by
        rcases Finset.mem_insert.mp hw with rfl | hw
        · exact hv
        · exact h.owns.small w hw
      mapped := fun w hw => by
        rcases Finset.mem_insert.mp hw with rfl | hw
        · exact ⟨b, hf⟩
        · exact h.owns.mapped w hw
      apart := fun w hw f hwf => by
        rcases Finset.mem_insert.mp hw with rfl | hw
        · rw [hf, Option.some.injEq] at hwf
          exact hwf ▸ hs.apart
        · exact h.owns.apart w hw f hwf
      inj := fun w hw w' hw' f hwf hwf' => by
        rcases Finset.mem_insert.mp hw with hwv | hwo
        · rcases Finset.mem_insert.mp hw' with hwv' | hwo'
          · rw [hwv, hwv']
          · rw [hwv, hf, Option.some.injEq] at hwf
            exact absurd (hwf ▸ hwf') (hs.unowned w' hwo')
        · rcases Finset.mem_insert.mp hw' with hwv' | hwo'
          · rw [hwv', hf, Option.some.injEq] at hwf'
            exact absurd (hwf' ▸ hwf) (hs.unowned w hwo)
          · exact h.owns.inj w hwo w' hwo' f hwf hwf' }

theorem Sound.removeEntry (h : Sound s owned) (hd : d < 1023) (ht : t < 1024)
    (hp : Present (s.pde d)) (hpt : Present (s.pte d t)) :
    Sound (s.removeEntry d t) (owned.erase (1024 * d + t)) := by
  have hap := h.tables.rooted.apart d hd hp
  refine ⟨h.enabled, h.tables.removeEntry hd ht hp hpt, ?_⟩
  refine h.owns.mono (Finset.erase_subset _ _) (fun v hv => ?_) fun _ _ _ _ ha => ha.of_removeEntry hap
  obtain ⟨hne, hv⟩ := Finset.mem_erase.mp hv
  rw [pageFrame, walkAt_removeEntry h.tables hd (h.owns.small v hv) hp,
    if_neg fun hc => hne (page_split hc.1 hc.2), pageFrame]

theorem Sound.erase (h : Sound s owned) (v : ℕ) : Sound s (owned.erase v) :=
  ⟨h.enabled, h.tables,
    h.owns.mono (Finset.erase_subset _ _) (fun _ _ => rfl) fun _ _ _ _ ha => ha⟩

/-- Giving back the frame of an owned page. -/
theorem Sound.release {v : ℕ} (h : Sound s owned) (hv : v ∈ owned) (hf : pageFrame s v = some b) :
    Sound (s.withPmm (s.pmm.release b)) (owned.erase v) := by
  have ha := h.owns.apart v hv b hf
  refine ⟨h.enabled, h.tables.release ha.lt ha.nonzero ha.root ha.tables, ?_⟩
  refine h.owns.mono (Finset.erase_subset _ _) (fun _ _ => rfl) fun w hw f hwf haf => ?_
  obtain ⟨hne, hw⟩ := Finset.mem_erase.mp hw
  -- two owned pages never share a frame, so the others keep theirs
  refine haf.of_release ?_
  rintro rfl
  exact hne (h.owns.inj w hw v hv f hwf hf)

theorem Sound.dropTable (h : Sound s owned) (hd : d < 768) (hp : Present (s.pde d))
    (hz : s.refCounter d = 0) :
    Sound ((s.withPmm (s.pmm.release (s.table d))).setWord s.cr3 d 0) owned := by
  have hempty : s.entries d = ∅ := by
    have := h.tables.counted d hd hp
    rw [hz] at this
    exact Finset.card_eq_zero.mp this.symm
  refine ⟨h.enabled, h.tables.dropTable hd hp hz, ?_⟩
  refine h.owns.mono (subset_refl _) (fun v hv => ?_) fun _ _ _ _ ha => ha.of_dropTable (by omega) hp
  rw [pageFrame, walkAt_dropTable h.tables hempty (h.owns.small v hv) (Nat.mod_lt _ (by decide)),
    pageFrame]

end Transfer
end KallarOS.Paging
