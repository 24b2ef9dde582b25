import KallarOS.PagingMmu
import KallarOS.PagingAccess
import KallarOS.Simulations

namespace KallarOS.Paging
open Pmm Caches Outcome ByteMemory Relation

/-- The pages of the recursive window. -/
def window : Set ℕ := Set.Ico 0xFFC00 0x100000

section Pages

variable {s s' : PagingState} {d t va : ℕ}

theorem pages_page (s : PagingState) (va : ℕ) : s.pages (page va) = walk s va := by
  rw [PagingState.pages, page_div, page_mod, walk]

/-- `translate` is the walk with the frame taken out of it. -/
theorem translate_eq (s : PagingState) (va : ℕ) :
    translate s va = match walk s va with
      | some w => .ok (frameOf w.2)
      | none => .error (.fault va) := by
  unfold translate walk walkAt
  change (if Present (s.pde (dirIndex va)) then
    if Present (s.pte (dirIndex va) (tabIndex va)) then _ else _ else _) = _
  by_cases hp : Present (s.pde (dirIndex va))
  · by_cases hq : Present (s.pte (dirIndex va) (tabIndex va))
    · rw [if_pos hp, if_pos hq, if_pos ⟨hp, hq⟩]
      rfl
    · rw [if_pos hp, if_neg hq, if_neg fun hc => hq hc.2]
  · rw [if_neg hp, if_neg fun hc => hp hc.1]

theorem page_dirPtr (hd : d < 1024) : page (recursiveDirPtr d) = 0xFFC00 + 1023 := by
  rw [page_eq_div]
  unfold recursiveDirPtr
  omega

theorem page_tablePtr (d : ℕ) (ht : t < 1024) : page (recursiveTablePtr d + 4 * t) = 0xFFC00 + d := by
  rw [page_eq_div]
  unfold recursiveTablePtr
  omega

theorem page_tableBase (d : ℕ) : page (recursiveTablePtr d) = 0xFFC00 + d :=
  page_tablePtr d (by decide : 0 < 1024)

theorem mem_window (hd : d < 1024) : 0xFFC00 + d ∈ window := ⟨by omega, by omega⟩

theorem page_lt_window (hva : va < 0xFFC00000) : page va < 0xFFC00 := by
  rw [page_eq_div]
  omega

/-- Slot `d` of the window shows the directory entry `d`. -/
theorem pages_window (h : Rooted s) (hd : d < 1024) :
    s.pages (0xFFC00 + d) = if Present (s.pde d) then some (s.pde 1023, s.pde d) else none := by
  have h1 : (0xFFC00 + d) / 1024 = 1023 := by omega
  have h2 : (0xFFC00 + d) % 1024 = d := by omega
  have hpte : s.pte 1023 d = s.pde d := by rw [PagingState.pte, h.root, PagingState.pde]
  rw [PagingState.pages, h1, h2, walkAt, hpte]
  by_cases hp : Present (s.pde d)
  · rw [if_pos ⟨h.slot, hp⟩, if_pos hp]
  · rw [if_neg fun hc => hp hc.2, if_neg hp]

theorem pages_window_except (h : Rooted s) (h' : Rooted s') (hd : d < 1023)
    (hpde : ∀ i < 1024, i ≠ d → s'.pde i = s.pde i) :
    ∀ v ∈ window \ {0xFFC00 + d}, s'.pages v = s.pages v := by
  rintro v ⟨⟨hlo, hhi⟩, hne⟩
  obtain ⟨i, rfl⟩ := Nat.exists_eq_add_of_le hlo
  have hid : i ≠ d := fun hid => hne (by rw [hid]; rfl)
  rw [pages_window h (by omega), pages_window h' (by omega), hpde i (by omega) hid,
    hpde 1023 (by omega) (by omega)]

theorem pages_window_congr (h : Rooted s) (h' : Rooted s') (hpde : ∀ i < 1024, s'.pde i = s.pde i) :
    ∀ v ∈ window, s'.pages v = s.pages v := by
  rintro v ⟨hlo, hhi⟩
  obtain ⟨i, rfl⟩ := Nat.exists_eq_add_of_le hlo
  rw [pages_window h (by omega), pages_window h' (by omega), hpde i (by omega),
    hpde 1023 (by omega)]

end Pages

/-- The machine with a cache follows the machine without one: its entries for the pages
of `P` are current, and no page below the window got an entry it did not have. -/
structure Shadows (P : Set ℕ) (tlb : Cache ℕ (ℕ × ℕ)) (s : PagingState) (m : Mmu) : Prop where
  state : m.state = s
  window : CoherentOn P m.tlb s.pages
  low : ∀ v < 0xFFC00, ∀ w, m.tlb v = some w → tlb v = some w

namespace Shadows

variable {P Q : Set ℕ} {tlb : Cache ℕ (ℕ × ℕ)} {s s' : PagingState} {m : Mmu}
  {d t n va value entry physAddr flags newFrame : ℕ} {pmm : PmmState}

theorem move (h : Shadows P tlb s m) (hQ : Q ⊆ P) (hp : ∀ v ∈ Q, s'.pages v = s.pages v) :
    Shadows Q tlb s' { m with state := s' } :=
  ⟨rfl, (h.window.subset hQ).congr hp, h.low⟩

theorem subset (h : Shadows P tlb s m) (hQ : Q ⊆ P) : Shadows Q tlb s m :=
  ⟨h.state, h.window.subset hQ, h.low⟩

theorem withPmm (h : Shadows P tlb s m) (pmm : PmmState) :
    Shadows P tlb (s.withPmm pmm) { m with state := m.state.withPmm pmm } := by
  obtain ⟨rfl, hw, hlow⟩ := h
  exact ⟨rfl, hw, hlow⟩

theorem allocFrame (h : Shadows P tlb s m) :
    Related (fun r r' => r.1 = r'.1 ∧ Shadows P tlb (s.withPmm r.2) r'.2) (pmmAllocFrame s.pmm)
      m.allocFrame := by
  rw [Mmu.allocFrame, h.state]
  cases pmmAllocFrame s.pmm with
  | error e => exact .error e
  | ok r => exact .ok ⟨rfl, h.state ▸ h.withPmm r.2⟩

theorem freeFrame (h : Shadows P tlb s m) (address : ℕ) :
    Related (fun pmm m' => Shadows P tlb (s.withPmm pmm) m') (pmmFreeFrame s.pmm address)
      (m.freeFrame address) := by
  rw [Mmu.freeFrame, h.state]
  cases pmmFreeFrame s.pmm address with
  | error e => exact .error e
  | ok pmm => exact .ok (h.state ▸ h.withPmm pmm)

theorem invlpg (h : Shadows (P \ {page va}) tlb s m) : Shadows P tlb s (m.invlpg va) := by
  refine ⟨h.state, h.window.drop, fun v hv w hw => ?_⟩
  by_cases hne : v = page va
  · subst hne
    cases drop_self.symm.trans hw
  · exact h.low v hv w ((drop_of_ne hne).symm.trans hw)

/-- An access to a page of the window with a current entry finds what the walk finds. -/
theorem translate (h : Shadows P tlb s m) (hp : page va ∈ P) (hw : page va ∈ Paging.window) :
    Related (fun f r => r.1 = f ∧ Shadows P tlb s r.2) (Paging.translate s va) (m.translate va) := by
  obtain ⟨rfl, hwin, hlow⟩ := h
  rw [translate_eq, Mmu.translate, hwin.lookup_eq hp, pages_page]
  cases walk m.state va with
  | none => exact .error _
  | some w =>
    refine .ok ⟨rfl, rfl, hwin.refill (refills_fill _ _ _), fun v hv w hw' => ?_⟩
    have hne : v ≠ page va := fun hv' => by
      have := hw.1
      omega
    exact hlow v hv w ((fill_of_ne hne).symm.trans hw')

theorem vread (h : Shadows P tlb s m) (hp : page va ∈ P) (hw : page va ∈ Paging.window) :
    Related (fun x r => r.1 = x ∧ Shadows P tlb s r.2) (Paging.vread s va) (m.vread va) := by
  refine (h.translate hp hw).bind fun f r hr => .ok ⟨?_, hr.2⟩
  rw [hr.2.state, hr.1]

theorem vwrite (h : Shadows P tlb s m) (hp : page va ∈ P) (hw : page va ∈ Paging.window)
    (hok : Paging.vwrite s va value = .ok s') (hQ : Q ⊆ P) (hpages : ∀ v ∈ Q, s'.pages v = s.pages v) :
    ∃ m', m.vwrite va value = .ok m' ∧ Shadows Q tlb s' m' := by
  obtain ⟨f, hf, hs'⟩ := bind_eq_ok.mp hok
  obtain ⟨⟨f', m'⟩, hm, rfl, hsh⟩ := (h.translate hp hw).exists_ok hf
  cases hs'
  refine ⟨_, by rw [Mmu.vwrite, hm]; rfl, ?_⟩
  rw [hsh.state]
  exact hsh.move hQ hpages

/-- `RECURSIVE_DIR_PTR[d]` is stored and the window of table `d` flushed. -/
theorem write_dir (h : Shadows Paging.window tlb s m) (hr : Rooted s) (hd : d < 1023) (entry : ℕ)
    (he : Present entry → frameOf entry ≠ s.cr3) :
    ∃ m', m.vwrite (recursiveDirPtr d) entry = .ok m' ∧
      Shadows Paging.window tlb (s.setWord s.cr3 d entry) (m'.invlpg (recursiveTablePtr d)) := by
  have hpg := page_dirPtr (by omega : d < 1024)
  have hmem : page (recursiveDirPtr d) ∈ Paging.window := hpg ▸ mem_window (by omega)
  obtain ⟨m', hm, hsh⟩ := h.vwrite hmem hmem (vwrite_dir hr (by omega) entry) Set.sdiff_subset
    (pages_window_except hr (hr.setDir hd he) hd fun i _ hid => by
      rw [PagingState.pde_setDir, if_neg hid])
  refine ⟨m', hm, Shadows.invlpg ?_⟩
  rwa [page_tableBase]

theorem pde_setTable (hap : s.table d ≠ s.cr3) (t entry i : ℕ) :
    (s.setWord (s.table d) t entry).pde i = s.pde i := by
  have : ¬ (s.cr3 = s.table d ∧ i = t) := fun hc => hap hc.1.symm
  simp [PagingState.pde, this]

theorem write_table (h : Shadows Paging.window tlb s m) (hr : Rooted s) (hd : d < 1023) (ht : t < 1024)
    (hp : Present (s.pde d)) (entry : ℕ) :
    ∃ m', m.vwrite (recursiveTablePtr d + 4 * t) entry = .ok m' ∧
      Shadows Paging.window tlb (s.setWord (s.table d) t entry) m' := by
  have hmem : page (recursiveTablePtr d + 4 * t) ∈ Paging.window :=
    page_tablePtr d ht ▸ mem_window (by omega)
  have hpde := pde_setTable (hr.apart d hd hp) t entry
  have hr' : Rooted (s.setWord (s.table d) t entry) := hr.congr rfl hpde
  exact h.vwrite hmem hmem (vwrite_table hr (by omega) ht hp entry) subset_rfl
    (pages_window_congr hr hr' fun i _ => hpde i)

theorem memsetZero (h : Shadows Paging.window tlb s m) (hr : Rooted s) (hd : d < 1023)
    (hp : Present (s.pde d)) (hn : n ≤ 1024) :
    ∃ m', m.memsetZero (recursiveTablePtr d) n = .ok m' ∧
      Shadows Paging.window tlb (s.zeroed (s.table d) n) m' := by
  have hap := hr.apart d hd hp
  induction n with
  | zero => exact ⟨m, rfl, by rwa [PagingState.zeroed_zero]⟩
  | succ n ih =>
    obtain ⟨m₁, hm₁, hsh⟩ := ih (by omega)
    let z := s.zeroed (s.table d) n
    have hdir : ∀ i, z.phys s.cr3 i = s.phys s.cr3 i := fun i => if_neg fun hc => hap hc.1.symm
    have hz : Rooted z := hr.congr rfl hdir
    have hpde : z.pde d = s.pde d := hdir d
    have htab : z.table d = s.table d := by rw [PagingState.table, hpde]; rfl
    obtain ⟨m₂, hm₂, hsh₂⟩ := hsh.write_table hz hd (by omega : n < 1024) (hpde.symm ▸ hp) 0
    rw [htab, PagingState.setWord_zeroed] at hsh₂
    exact ⟨m₂, by rw [Mmu.memsetZero, hm₁, Outcome.ok_bind, hm₂], hsh₂⟩

theorem installTable (h : Shadows Paging.window tlb s m) (hr : Rooted s) (hd : d < 1023)
    (ha : pmmAllocFrame s.pmm = .ok (newFrame, pmm)) (hp : Present (newFrame ||| dirFlags flags))
    (hf : frameOf (newFrame ||| dirFlags flags) ≠ s.cr3) :
    ∃ m', m.installTable d flags = .ok m' ∧
      Shadows Paging.window tlb ((s.withPmm pmm).addTable d (newFrame ||| dirFlags flags)) m' := by
  have hr₁ := hr.withPmm pmm
  have hr₂ := hr₁.setDir hd (e := newFrame ||| dirFlags flags) fun _ => hf
  have hpde := (s.withPmm pmm).pde_setDir d (newFrame ||| dirFlags flags) d
  rw [if_pos rfl] at hpde
  obtain ⟨⟨x, m₀⟩, hm₀, rfl, h₀⟩ := h.allocFrame.exists_ok ha
  obtain ⟨m₁, hm₁, h₁⟩ := h₀.write_dir hr₁ hd (newFrame ||| dirFlags flags) fun _ => hf
  obtain ⟨m₂, hm₂, h₂⟩ := h₁.memsetZero hr₂ hd (hpde.symm ▸ hp) le_rfl
  rw [PagingState.table, hpde] at h₂
  refine ⟨m₂, ?_, h₂⟩
  rw [Mmu.installTable, hm₀, Outcome.ok_bind]
  simp only [hm₁, Outcome.ok_bind, hm₂]

theorem enterPage (h : Shadows Paging.window tlb s m) (hr : Rooted s) (hd : d < 1023) (ht : t < 1024)
    (hp : Present (s.pde d)) (entry : ℕ) :
    ∃ m', m.enterPage d t entry = .ok m' ∧ Shadows Paging.window tlb (s.putEntry d t entry) m' := by
  have hmem : page (recursiveTablePtr d + 4 * t) ∈ Paging.window :=
    page_tablePtr d ht ▸ mem_window (by omega)
  obtain ⟨⟨x, m₁⟩, hm₁, rfl, hsh⟩ := (h.vread hmem hmem).exists_ok (vread_table hr (by omega) ht hp)
  have hpde : ∀ i, (countEntry s d (s.pte d t)).pde i = s.pde i := fun i => by simp [PagingState.pde]
  have hc : Rooted (countEntry s d (s.pte d t)) := hr.congr (by simp) fun i => by simp
  obtain ⟨m₂, hm₂, hsh₂⟩ := (hsh.move subset_rfl
    (pages_window_congr hr hc fun i _ => hpde i)).write_table hc hd ht ((hpde d).symm ▸ hp) entry
  rw [PagingState.table, hpde] at hsh₂
  refine ⟨m₂, ?_, hsh₂⟩
  rw [Mmu.enterPage, hm₁]
  simp only [Outcome.ok_bind]
  rw [hsh.state, hm₂]


/-- `map_page` enters the page and flushes its old translation. -/
theorem mapPage (h : Shadows Paging.window tlb s m) (hr : Rooted s) (hen : s.pagingEnabled = true)
    (hva : va < 0xFFC00000)
    (hnew : ¬ Present (s.pde (dirIndex va)) → ∃ newFrame pmm, pmmAllocFrame s.pmm = .ok (newFrame, pmm) ∧
      Present (newFrame ||| dirFlags flags) ∧ frameOf (newFrame ||| dirFlags flags) ≠ s.cr3) :
    ∃ s' m', Paging.mapPage s va physAddr flags = .ok s' ∧ m.mapPage va physAddr flags = .ok m' ∧
      Shadows Paging.window tlb s' m' ∧ m'.tlb (page va) = none := by
  have hd := dirIndex_lt hva
  have ht := tabIndex_lt va
  have hmem : page (recursiveDirPtr (dirIndex va)) ∈ Paging.window :=
    page_dirPtr (by omega : dirIndex va < 1024) ▸ mem_window (by omega)
  have hen' : m.state.pagingEnabled = true := by rw [h.state, hen]
  obtain ⟨⟨x, m₁⟩, hm₁, rfl, h₁⟩ := (h.vread hmem hmem).exists_ok (vread_dir hr (by omega))
  rw [Paging.mapPage, if_pos hen, Mmu.mapPage, if_pos hen', Mmu.mapPageEnabled, Mmu.ensureTable, hm₁]
  simp only [Outcome.ok_bind]
  -- what remains once the table of the page stands
  have enter : ∀ (q : PagingState) (m₂ : Mmu), Shadows Paging.window tlb q m₂ → Rooted q →
      Present (q.pde (dirIndex va)) → ∃ m₃, (m₂.enterPage (dirIndex va) (tabIndex va)
        (physAddr ||| flags)) = .ok m₃ ∧ Shadows Paging.window tlb
          (q.putEntry (dirIndex va) (tabIndex va) (physAddr ||| flags)) (m₃.invlpg va) := by
    intro q m₂ hq hqr hqp
    obtain ⟨m₃, hm₃, h₃⟩ := hq.enterPage hqr hd ht hqp (physAddr ||| flags)
    exact ⟨m₃, hm₃, (h₃.subset Set.sdiff_subset).invlpg⟩
  by_cases hp : Present (s.pde (dirIndex va))
  · have hz : ¬ s.pde (dirIndex va) &&& pdePresent = 0 := fun h0 => and_present_eq_zero.mp h0 hp
    obtain ⟨m₃, hm₃, h₃⟩ := enter s m₁ h₁ hr hp
    refine ⟨_, _, mapPageEnabled_present hr (by omega) ht hp physAddr flags, ?_, h₃, drop_self⟩
    rw [if_neg hz, Outcome.pure_eq_ok, Outcome.ok_bind, hm₃]
    rfl
  · obtain ⟨newFrame, pmm, ha, hpe, hf⟩ := hnew hp
    obtain ⟨m₂, hm₂, h₂⟩ := h₁.installTable hr hd ha hpe hf
    have hpde := pde_addTable (s := s.withPmm pmm) (d := dirIndex va) hf (dirIndex va)
    rw [if_pos rfl] at hpde
    obtain ⟨m₃, hm₃, h₃⟩ := enter _ m₂ h₂ ((hr.withPmm pmm).addTable hd hf) (hpde.symm ▸ hpe)
    refine ⟨_, _, mapPageEnabled_absent hr hd ht hp ha hpe hf, ?_, h₃, drop_self⟩
    rw [if_pos (and_present_eq_zero.mpr hp), hm₂, Outcome.ok_bind, hm₃]
    rfl

theorem alreadyMapped (h : Shadows Paging.window tlb s m) (hr : Rooted s) (hd : d < 1023)
    (ht : t < 1024) :
    ∃ m', m.alreadyMapped d t = .ok (decide (Present (s.pde d) ∧ Present (s.pte d t)), m') ∧
      Shadows Paging.window tlb s m' := by
  have hmem : page (recursiveDirPtr d) ∈ Paging.window :=
    page_dirPtr (by omega : d < 1024) ▸ mem_window (by omega)
  have hmem' : page (recursiveTablePtr d + 4 * t) ∈ Paging.window :=
    page_tablePtr d ht ▸ mem_window (by omega)
  obtain ⟨⟨x, m₁⟩, hm₁, rfl, h₁⟩ := (h.vread hmem hmem).exists_ok (vread_dir hr (by omega))
  rw [Mmu.alreadyMapped, hm₁]
  simp only [Outcome.ok_bind]
  by_cases hp : Present (s.pde d)
  · obtain ⟨⟨y, m₂⟩, hm₂, rfl, h₂⟩ := (h₁.vread hmem' hmem').exists_ok (vread_table hr (by omega) ht hp)
    refine ⟨m₂, ?_, h₂⟩
    rw [if_neg fun h0 => and_present_eq_zero.mp h0 hp, hm₂]
    simp [hp, and_ptePresent_eq_zero]
  · refine ⟨m₁, ?_, h₁⟩
    rw [if_pos (and_present_eq_zero.mpr hp)]
    simp [hp]

/-- The entry of the page is cleared before its translation is flushed. -/
theorem dropEntry (h : Shadows Paging.window tlb s m) (hr : Rooted s) (hva : va < 0xFFC00000)
    (hp : Present (s.pde (dirIndex va))) :
    ∃ m', m.dropEntry va = .ok m' ∧
      Shadows Paging.window tlb (if Present (s.pte (dirIndex va) (tabIndex va)) then
        s.removeEntry (dirIndex va) (tabIndex va) else s) m' ∧
      (Present (s.pte (dirIndex va) (tabIndex va)) → m'.tlb (page va) = none) := by
  have hd := dirIndex_lt hva
  have ht := tabIndex_lt va
  have hmem : page (recursiveTablePtr (dirIndex va) + 4 * tabIndex va) ∈ Paging.window :=
    page_tablePtr (dirIndex va) ht ▸ mem_window (by omega)
  obtain ⟨⟨x, m₁⟩, hm₁, rfl, h₁⟩ := (h.vread hmem hmem).exists_ok (vread_table hr (by omega) ht hp)
  rw [Mmu.dropEntry]
  simp only [hm₁, Outcome.ok_bind]
  by_cases hq : Present (s.pte (dirIndex va) (tabIndex va))
  · obtain ⟨m₂, hm₂, h₂⟩ := h₁.write_table hr hd ht hp 0
    have h₃ : Shadows Paging.window tlb _ (m₂.invlpg va) := (h₂.subset Set.sdiff_subset).invlpg
    have hst : (m₂.invlpg va).state = s.setWord (s.table (dirIndex va)) (tabIndex va) 0 := h₂.state
    refine ⟨{ m₂.invlpg va with state := s.removeEntry (dirIndex va) (tabIndex va) }, ?_, ?_,
      fun _ => drop_self⟩
    · rw [if_pos fun h0 => and_ptePresent_eq_zero.mp h0 hq, hm₂, Outcome.ok_bind, hst]
      rfl
    · rw [if_pos hq]
      exact h₃.move subset_rfl fun v _ => rfl
  · refine ⟨m₁, ?_, ?_, fun hc => absurd hc hq⟩
    · rw [if_neg (not_not.mpr (and_ptePresent_eq_zero.mpr hq))]
      rfl
    · rwa [if_neg hq]

theorem dropTable (h : Shadows Paging.window tlb s m) (hr : Rooted s) (hd : d < 1023) :
    Related (Shadows Paging.window tlb) (Paging.dropTable s d) (m.dropTable d) := by
  have hmem : page (recursiveDirPtr d) ∈ Paging.window :=
    page_dirPtr (by omega : d < 1024) ▸ mem_window (by omega)
  rw [dropTable_eq hr (by omega), Mmu.dropTable, h.state]
  split_ifs with hc
  · obtain ⟨⟨x, m₁⟩, hm₁, rfl, h₁⟩ := (h.vread hmem hmem).exists_ok (vread_dir hr (by omega))
    rw [hm₁]
    simp only [Outcome.ok_bind, and_frameMask]
    apply (h₁.freeFrame (s.table d * 4096)).bind
    intro pmm m₂ h₂
    have habs : ¬ Present 0 := by decide
    obtain ⟨m₃, hm₃, h₃⟩ := h₂.write_dir (hr.withPmm pmm) hd 0 fun hc => absurd hc habs
    rw [hm₃]
    exact .ok h₃
  · exact .ok h

theorem rebase (h : Shadows P tlb s m) : Shadows P m.tlb s m := ⟨h.state, h.window, fun _ _ _ => id⟩

theorem trans {m' : Mmu} (h : Shadows P tlb s m) (h' : Shadows P m.tlb s' m') : Shadows P tlb s' m' :=
  ⟨h'.state, h'.window, fun v hv w hw => h.low v hv w (h'.low v hv w hw)⟩

end Shadows

/-- A call on `va` is over: where `va` was mapped, its old translation is gone. -/
structure Flushed (tlb : Cache ℕ (ℕ × ℕ)) (s : PagingState) (va : ℕ) (s' : PagingState) (m' : Mmu) :
    Prop where
  shadows : Shadows window tlb s' m'
  gone : walk s va ≠ none → m'.tlb (page va) = none

namespace Shadows

variable {tlb : Cache ℕ (ℕ × ℕ)} {s : PagingState} {m : Mmu} {va flags : ℕ}

theorem present_of_walk (h : walk s va ≠ none) :
    Present (s.pde (dirIndex va)) ∧ Present (s.pte (dirIndex va) (tabIndex va)) := by
  by_contra hn
  rw [walk, walkAt, if_neg hn] at h
  exact h rfl

theorem unmapPage (h : Shadows Paging.window tlb s m) (hr : Rooted s) (hen : s.pagingEnabled = true)
    (hva : va < 0xFFC00000) :
    Related (Flushed tlb s va) (Paging.unmapPage s va) (m.unmapPage va) := by
  have hd := dirIndex_lt hva
  have hmem : page (recursiveDirPtr (dirIndex va)) ∈ Paging.window :=
    page_dirPtr (by omega : dirIndex va < 1024) ▸ mem_window (by omega)
  obtain ⟨⟨x, m₁⟩, hm₁, rfl, h₁⟩ := (h.vread hmem hmem).exists_ok (vread_dir hr (by omega))
  rw [unmapPage_eq hr hen hva, Mmu.unmapPage, h.state, if_neg (not_not.mpr hen), hm₁]
  simp only [Outcome.ok_bind]
  by_cases hp : Present (s.pde (dirIndex va))
  · have hap := hr.apart _ hd hp
    obtain ⟨m₂, hm₂, h₂, hgone⟩ := h₁.dropEntry hr hva hp
    rw [if_pos hp, if_neg fun h0 => and_present_eq_zero.mp h0 hp, hm₂, Outcome.ok_bind]
    have hr₂ : Rooted (if Present (s.pte (dirIndex va) (tabIndex va)) then
        s.removeEntry (dirIndex va) (tabIndex va) else s) := by
      split_ifs
      · exact hr.congr rfl (pde_removeEntry hap)
      · exact hr
    apply (h₂.rebase.dropTable hr₂ hd).mono
    intro s' m' h'
    refine ⟨h₂.trans h', fun hw => ?_⟩
    have hnone := hgone (present_of_walk hw).2
    cases hc : m'.tlb (page va) with
    | none => rfl
    | some w =>
      rw [h'.low _ (page_lt_window hva) w hc] at hnone
      cases hnone
  · rw [if_neg hp, if_pos (and_present_eq_zero.mpr hp)]
    exact .error _

theorem freePage (h : Shadows Paging.window tlb s m) (hr : Rooted s) (hen : s.pagingEnabled = true)
    (hva : va < 0xFFC00000) :
    Related (Flushed tlb s va) (Paging.freePage s va) (m.freePage va) := by
  have hd := dirIndex_lt hva
  have ht := tabIndex_lt va
  have hmem : page (recursiveDirPtr (dirIndex va)) ∈ Paging.window :=
    page_dirPtr (by omega : dirIndex va < 1024) ▸ mem_window (by omega)
  have hmem' : page (recursiveTablePtr (dirIndex va) + 4 * tabIndex va) ∈ Paging.window :=
    page_tablePtr (dirIndex va) ht ▸ mem_window (by omega)
  obtain ⟨⟨x, m₁⟩, hm₁, rfl, h₁⟩ := (h.vread hmem hmem).exists_ok (vread_dir hr (by omega))
  rw [freePage_eq hr hen hva, Mmu.freePage, h.state, if_neg (not_not.mpr hen), hm₁]
  simp only [Outcome.ok_bind]
  by_cases hp : Present (s.pde (dirIndex va))
  · have hread := vread_table hr (by omega : dirIndex va < 1024) ht hp
    obtain ⟨⟨y, m₂⟩, hm₂, rfl, h₂⟩ := (h₁.vread hmem' hmem').exists_ok hread
    obtain ⟨⟨z, m₃⟩, hm₃, rfl, h₃⟩ := (h₂.vread hmem' hmem').exists_ok hread
    rw [if_pos hp, if_neg fun h0 => and_present_eq_zero.mp h0 hp, hm₂]
    simp only [Outcome.ok_bind]
    by_cases hq : Present (s.pte (dirIndex va) (tabIndex va))
    · rw [if_pos hq, if_neg fun h0 => and_ptePresent_eq_zero.mp h0 hq, hm₃]
      simp only [Outcome.ok_bind, and_frameMask]
      apply (h₃.freeFrame _).bind
      intro pmm m₄ h₄
      exact (h₄.unmapPage (hr.withPmm pmm) hen hva).mono fun _ _ hf => ⟨hf.shadows, hf.gone⟩
    · rw [if_neg hq, if_pos (and_ptePresent_eq_zero.mpr hq)]
      exact .error _
  · rw [if_neg hp, if_pos (and_present_eq_zero.mpr hp)]
    exact .error _

theorem allocPage (h : Shadows Paging.window tlb s m) (hr : Rooted s) (hen : s.pagingEnabled = true)
    (hva : va < 0xFFC00000) {addr : ℕ} {pmm : PmmState} (hok : pmmAllocFrame s.pmm = .ok (addr, pmm))
    (hnew : ¬ Present (s.pde (dirIndex va)) → ∃ newFrame pmm', pmmAllocFrame pmm = .ok (newFrame, pmm') ∧
      Present (newFrame ||| dirFlags flags) ∧ frameOf (newFrame ||| dirFlags flags) ≠ s.cr3) :
    Related (Flushed tlb s va) (Paging.allocPage s va flags) (m.allocPage va flags) := by
  have hd := dirIndex_lt hva
  obtain ⟨m₁, hm₁, h₁⟩ := h.alreadyMapped hr hd (tabIndex_lt va)
  obtain ⟨⟨x, m₂⟩, hm₂, rfl, h₂⟩ := h₁.allocFrame.exists_ok hok
  rw [allocPage_eq hr hen hva hok, Mmu.allocPage, h.state, if_neg (not_not.mpr hen), hm₁]
  simp only [Outcome.ok_bind, decide_eq_true_eq, hm₂]
  split_ifs with hmapped hzero
  · exact .error _
  · exact .error _
  · obtain ⟨s', m', hs', hm', h', hnone⟩ := h₂.mapPage (hr.withPmm pmm) hen hva hnew
    rw [hs', hm']
    exact .ok ⟨h', fun _ => hnone⟩

end Shadows

section Calls

variable {s : PagingState} {owned : Finset ℕ} {k : Tracked} {m : Mmu} {tlb : Cache ℕ (ℕ × ℕ)}

def Call.execCached : Call → Mmu → Outcome Mmu
  | map va physAddr flags, m => m.mapPage va physAddr flags
  | alloc va flags, m => m.allocPage va flags
  | unmap va, m => m.unmapPage va
  | free va, m => m.freePage va

theorem Sound.newTable (h : Sound s owned) (hc : CanAlloc s.pmm) (flags : ℕ) :
    ∃ newFrame pmm, pmmAllocFrame s.pmm = .ok (newFrame, pmm) ∧
      Present (newFrame ||| dirFlags flags) ∧ frameOf (newFrame ||| dirFlags flags) ≠ s.cr3 := by
  obtain ⟨b, hb, hok⟩ := h.tables.canAlloc hc
  obtain ⟨hs, hspare⟩ := h.allot hb
  have hfr := hspare.frameOf_or hs.tables (dirFlags_lt flags)
  have hpe := present_or (Nat.mul_mod_left b 4096) (dirFlags_lt flags)
  exact ⟨_, _, hok, hpe.mpr (dirFlags_present flags), fun he => hspare.apart.root (hfr.symm.trans he)⟩

/-- Every call of the contract does with the cache what it does without. -/
theorem Tracked.Good.flushed (h : k.Good) (hs : Shadows window tlb k.state m) {c : Call}
    (ha : c.Allowed k) :
    Related (Flushed tlb k.state c.address) (c.exec k.state) (c.execCached m) := by
  have hr := h.sound.tables.rooted
  cases c with
  | map va physAddr flags =>
    obtain ⟨hva, -, -, -, hal⟩ := ha
    obtain ⟨s', m', hs', hm', h', hnone⟩ := hs.mapPage hr h.sound.enabled hva fun hp =>
      h.sound.newTable (hal.resolve_left hp) flags
    rw [Call.exec, Call.execCached, hs', hm']
    exact .ok ⟨h', fun _ => hnone⟩
  | alloc va flags =>
    obtain ⟨hva, -, -, addr, pmm', hok, hne, hnext⟩ := ha
    obtain ⟨b, hb, hok'⟩ := h.sound.tables.canAlloc ⟨addr, pmm', hok, hne⟩
    rw [hok'] at hok
    cases hok
    exact hs.allocPage hr h.sound.enabled hva hok' fun hp =>
      (h.sound.allot hb).1.newTable (hnext.resolve_left hp) flags
  | unmap va => exact hs.unmapPage hr h.sound.enabled ha
  | free va => exact hs.freePage hr h.sound.enabled ha.1

theorem Tracked.Good.sameElsewhere (h : k.Good) {c : Call} {s' : PagingState} (ha : c.Allowed k)
    (he : c.exec k.state = .ok s') : SameElsewhere k.state s' c.address := by
  cases c with
  | map va physAddr flags =>
    obtain ⟨hva, hpa, hfl, hpr, hal⟩ := ha
    obtain ⟨_, hok, hm⟩ := h.sound.mapPage hva hpa hfl hpr hal
    cases Except.ok.inj (hok.symm.trans he)
    exact hm.elsewhere
  | alloc va flags =>
    obtain ⟨b, _, hok, -, -, helse, -⟩ := h.allocPage_returns ha (h.sound.walk_none_of_allocPage ha.1 he)
    cases Except.ok.inj (hok.symm.trans he)
    exact helse
  | unmap va =>
    obtain ⟨_, hok, hu⟩ := h.sound.unmapPage h.filled ha (h.sound.present_of_unmapPage ha he)
    cases Except.ok.inj (hok.symm.trans he)
    exact hu.elsewhere
  | free va =>
    obtain ⟨b, _, -, hok, hu⟩ := h.sound.freePage h.filled ha.1 ha.2
    cases Except.ok.inj (hok.symm.trans he)
    exact hu.elsewhere

/-- All pages of the address space. -/
def allPages : Set ℕ := Set.Iio 0x100000

/-- A coherent cache is coherent after the call. -/
theorem Flushed.coherent {va : ℕ} {s' : PagingState} {m' : Mmu} (h : Flushed tlb s va s' m')
    (hc : CoherentOn allPages tlb s.pages) (hs : SameElsewhere s s' va) :
    CoherentOn allPages m'.tlb s'.pages := by
  intro v hv w hw
  by_cases hlow : v < 0xFFC00
  · have hold := hc v hv w (h.shadows.low v hlow w hw)
    have hpage : page (4096 * v) = v := by
      rw [page_eq_div]
      omega
    by_cases hva : v = page va
    · subst hva
      rw [pages_page] at hold
      rw [h.gone fun hn => by rw [hn] at hold; cases hold] at hw
      cases hw
    · rw [← hold, ← hpage, pages_page, pages_page]
      exact hs _ (by omega) (hpage.symm ▸ hva)
  · exact h.shadows.window v ⟨by omega, hv⟩ w hw

end Calls

section Runs

/-- The machine with its cache and the pages whose current mapping was made by `alloc_page`. -/
structure Cached where
  mmu : Mmu
  owned : Finset ℕ

namespace Cached

def plain (k : Cached) : Tracked := ⟨k.mmu.state, k.owned⟩

/-- A call that returns, or the processor loses and takes up translations by itself. -/
inductive Step : Cached → Cached → Prop where
  | call {k : Cached} {m' : Mmu} (c : Call) :
      c.Allowed k.plain → c.execCached k.mmu = .ok m' → Step k ⟨m', c.owned k.owned⟩
  | refill {k : Cached} (tlb : Cache ℕ (ℕ × ℕ)) :
      Refills k.mmu.tlb k.mmu.state.pages tlb → Step k ⟨{ k.mmu with tlb := tlb }, k.owned⟩

/-- The state of a run: a good machine and a cache that tells the truth. -/
structure Good (k : Cached) : Prop where
  plain : k.plain.Good
  coherent : CoherentOn allPages k.mmu.tlb k.mmu.state.pages

variable {k k' : Cached}

theorem Good.exec (h : k.Good) {c : Call} (ha : c.Allowed k.plain) :
    Related (fun s' m' => m'.state = s' ∧ CoherentOn allPages m'.tlb s'.pages)
      (c.exec k.mmu.state) (c.execCached k.mmu) := by
  have hwin : window ⊆ allPages := fun v hv => hv.2
  have hs : Shadows window k.mmu.tlb k.mmu.state k.mmu :=
    ⟨rfl, h.coherent.subset hwin, fun _ _ _ => id⟩
  apply (h.plain.flushed hs ha).mono_ok
  intro s' m' he hf
  exact ⟨hf.shadows.state, hf.coherent h.coherent (h.plain.sameElsewhere ha he)⟩

theorem Good.step (h : k.Good) (hs : k.Step k') :
    k'.Good ∧ ReflTransGen Tracked.Step k.plain k'.plain := by
  cases hs with
  | call c ha he =>
    obtain ⟨s', hs', rfl, hc⟩ := (h.exec ha).exists_ok_left he
    have hstep : Tracked.Step k.plain ⟨_, c.owned k.owned⟩ := .call c ha hs'
    exact ⟨⟨h.plain.step hstep, hc⟩, .single hstep⟩
  | refill tlb hr => exact ⟨⟨h.plain, h.coherent.refill hr⟩, .refl⟩

theorem Good.run (h : k.Good) (hr : ReflTransGen Step k k') :
    k'.Good ∧ ReflTransGen Tracked.Step k.plain k'.plain := by
  induction hr with
  | refl => exact ⟨h, .refl⟩
  | tail _ hs ih =>
    obtain ⟨hgood, hrun⟩ := ih
    obtain ⟨hgood', hrun'⟩ := hgood.step hs
    exact ⟨hgood', hrun.trans hrun'⟩

theorem Good.lookup_eq (h : k.Good) {va : ℕ} (hva : va < 2 ^ 32) :
    lookup k.mmu.tlb k.mmu.state.pages (page va) = walk k.mmu.state va := by
  have hpage : page va ∈ allPages := by
    change page va < 0x100000
    rw [page_eq_div]
    omega
  rw [h.coherent.lookup_eq hpage, pages_page]

end Cached

/-- The `invlpg`s of the paging code suffice: in every run, whatever translations the
processor keeps, drops and takes up between the calls, the machine with the cache does what
the machine without does, and no access ever goes through an old translation. -/
theorem tlb_never_stale (l : Layout) (mem : Mem) (mbd : MultibootInfo) (es : List MmapEntry)
    (hm : MemoryMap mem mbd es) (ho : ∀ e ∈ es, e.Ordinary) (f : BootFrames l) (ram : ℕ → ℕ → ℕ) :
    ∃ p, pmmInit l mem mbd = .ok p ∧
      ∀ tlb, CoherentOn allPages tlb (f.start ram p).state.pages →
        ∀ k, ReflTransGen Cached.Step ⟨⟨(f.start ram p).state, tlb⟩, ∅⟩ k →
          ReflTransGen Tracked.Step (f.start ram p) k.plain ∧
          (∀ va < 2 ^ 32, lookup k.mmu.tlb k.mmu.state.pages (page va) = walk k.mmu.state va) ∧
          ∀ c, Call.Allowed c k.plain →
            Related (fun s' m' => m'.state = s') (c.exec k.mmu.state) (c.execCached k.mmu) := by
  obtain ⟨p, hp, hgood⟩ := f.start_good hm ho ram
  refine ⟨p, hp, fun tlb hc k hr => ?_⟩
  have hstart : Cached.Good ⟨⟨(f.start ram p).state, tlb⟩, ∅⟩ := ⟨hgood, hc⟩
  obtain ⟨hk, hrun⟩ := hstart.run hr
  exact ⟨hrun, fun va hva => hk.lookup_eq hva, fun c ha => (hk.exec ha).mono fun _ _ h => h.1⟩

/-- With every translation cached beforehand, a page that is mapped anew is found anew. -/
theorem tlb_never_stale_sample :
    ∃ p m' pde, pmmInit sampleLayout sampleMap ⟨0x1000, 24⟩ = .ok p ∧
      let s := (sampleFrames.start (fun _ _ => 0) p).state
      Mmu.mapPage ⟨s, s.pages⟩ 0xC03FF000 0x5000 3 = .ok m' ∧
      lookup m'.tlb m'.state.pages (page 0xC03FF000) = some (pde, 0x5000 ||| 3) := by
  obtain ⟨p, hp, h⟩ := tlb_never_stale sampleLayout sampleMap ⟨0x1000, 24⟩ [sampleEntry]
    sampleMap_wellFormed sampleEntry_ordinary sampleFrames fun _ _ => 0
  obtain ⟨q, hq, hgood⟩ := sampleFrames.start_good sampleMap_wellFormed sampleEntry_ordinary fun _ _ => 0
  cases hp.symm.trans hq
  have ha := sampleFrames_allowed p
  obtain ⟨s', hs', hmapped⟩ := hgood.sound.mapPage ha.1 ha.2.1 ha.2.2.1 ha.2.2.2.1 ha.2.2.2.2
  have hall := h _ fun _ _ _ hw => hw
  obtain ⟨-, -, hexec⟩ := hall _ .refl
  obtain ⟨m', hm', rfl⟩ := (hexec _ ha).exists_ok hs'
  obtain ⟨-, hlook, -⟩ := hall _ (.single (.call _ ha hm'))
  obtain ⟨pde, hwalk⟩ := hmapped.here
  exact ⟨p, m', pde, hp, hm', (hlook 0xC03FF000 (by decide)).trans hwalk⟩

end Runs
end KallarOS.Paging
