import KallarOS.PagingAccess

namespace KallarOS.Paging
open Pmm ByteMemory

/-- The frame `pmm_alloc_frame` hands out; its answer 0 says that there is none. -/
def handedOut (p : PmmState) : Option ℕ :=
  match pmmAllocFrame p with
  | .ok (addr, _) => if addr = 0 then none else some (addr / 4096)
  | .error _ => none

namespace Call

/-- The allocator as the block that creates a page table finds it: `alloc_page` has
taken the frame of the page before. Without that frame it panics. -/
def allocator (s : PagingState) : Call → Option PmmState
  | map .. => some s.pmm
  | alloc .. =>
    match pmmAllocFrame s.pmm with
    | .ok (addr, pmm) => if addr = 0 then none else some pmm
    | .error _ => none
  | unmap _ => none
  | free _ => none

/-- The call reaches the block that creates a page table. -/
def NeedsTable (c : Call) (s : PagingState) : Prop :=
  ¬ Present (s.pde (dirIndex c.address)) ∧ (c.allocator s).isSome

/-- The frame the allocator hands out in this call for the page table. -/
def granted (c : Call) (s : PagingState) : Option ℕ :=
  if Present (s.pde (dirIndex c.address)) then none else (c.allocator s).bind handedOut

/-- Where the call needs a page table, the allocator has a frame for it. -/
def TableFound (c : Call) (s : PagingState) : Prop := c.NeedsTable s → ∃ b, c.granted s = some b

end Call

/-- A call at directory index `d` and table index `t` leaves every present directory
entry as it was, or pointing at the frame granted for it, and writes nothing but its
two entries and the granted frame. -/
structure Keeps (s s' : PagingState) (d t : ℕ) (granted : Option ℕ) : Prop where
  pdes : ∀ i, Present (s'.pde i) → s'.pde i = s.pde i ∨ i = d ∧ granted = some (s'.table i)
  words : ∀ f i, s'.phys f i ≠ s.phys f i →
    f = s.cr3 ∧ i = d ∨ Present (s.pde d) ∧ f = s.table d ∧ i = t ∨ granted = some f

/-- The call halts the machine: a panic, or the page fault of a table granted on top of
the directory. -/
def Call.Halts (c : Call) (s : PagingState) : Prop :=
  (∃ m, c.exec s = .error (.panic m)) ∨
    (∃ a, c.exec s = .error (.fault a)) ∧ c.granted s = some s.cr3

def Call.Safe (c : Call) (s : PagingState) : Prop :=
  c.Halts s ∨ ∃ s', c.exec s = .ok s' ∧
    Keeps s s' (dirIndex c.address) (tabIndex c.address) (c.granted s)

section Granted

variable {s : PagingState} {p pmm : PmmState} {b va : ℕ}

theorem handedOut_eq (ha : pmmAllocFrame p = .ok (b * 4096, pmm)) :
    handedOut p = if b = 0 then none else some b := by
  rw [handedOut, ha]
  by_cases hb : b = 0
  · subst hb
    rfl
  · have hne : b * 4096 ≠ 0 := by omega
    simp only [if_neg hne, if_neg hb, Nat.mul_div_cancel b (by decide : 0 < 4096)]

theorem granted_map (hp : ¬ Present (s.pde (dirIndex va)))
    (ha : pmmAllocFrame s.pmm = .ok (b * 4096, pmm)) (physAddr flags : ℕ) :
    (Call.map va physAddr flags).granted s = if b = 0 then none else some b := by
  rw [← handedOut_eq ha]
  exact if_neg hp

theorem allocator_alloc (hb : b ≠ 0) (ha : pmmAllocFrame s.pmm = .ok (b * 4096, pmm))
    (va flags : ℕ) :
    (Call.alloc va flags).allocator s = some pmm := by
  have hne : b * 4096 ≠ 0 := by omega
  simp only [Call.allocator, ha, if_neg hne]

/-- Once `alloc_page` has its frame it is the `map_page` of that frame. -/
theorem granted_alloc (hb : b ≠ 0) (ha : pmmAllocFrame s.pmm = .ok (b * 4096, pmm))
    (va flags : ℕ) :
    (Call.alloc va flags).granted s =
      (Call.map va (b * 4096) flags).granted (s.withPmm pmm) := by
  rw [Call.granted, allocator_alloc hb ha]
  rfl

theorem tableFound_alloc (hb : b ≠ 0) (ha : pmmAllocFrame s.pmm = .ok (b * 4096, pmm))
    (va flags : ℕ) :
    (Call.alloc va flags).TableFound s ↔
      (Call.map va (b * 4096) flags).TableFound (s.withPmm pmm) := by
  rw [Call.TableFound, Call.NeedsTable, granted_alloc hb ha, allocator_alloc hb ha]
  rfl

theorem granted_of_present {c : Call} (hp : Present (s.pde (dirIndex c.address))) :
    c.granted s = none := if_pos hp

theorem Wired.granted_ne_zero {c : Call} (h : Wired s) (hg : c.granted s = some b) : b ≠ 0 := by
  have hpos : ∀ {s : PagingState}, Wired s → handedOut s.pmm = some b → b ≠ 0 := by
    intro s h hout
    obtain ⟨n, pmm, ha, -⟩ := h.pmmAllocFrame
    rw [handedOut_eq ha] at hout
    split_ifs at hout with hn
    cases hout
    exact hn
  unfold Call.granted at hg
  split_ifs at hg
  cases c with
  | map va physAddr flags => exact hpos h hg
  | alloc va flags =>
    obtain ⟨n, pmm, ha, -, hw⟩ := h.pmmAllocFrame
    by_cases hn : n = 0
    · subst hn
      simp [Call.allocator, ha] at hg
    · rw [allocator_alloc hn ha] at hg
      exact hpos hw hg
  | unmap va => exact absurd hg (by simp [Call.allocator])
  | free va => exact absurd hg (by simp [Call.allocator])

end Granted

section Words

variable {s s' : PagingState} {pmm : PmmState} {d t e f i : ℕ}

theorem phys_putEntry :
    (s.putEntry d t e).phys f i = if f = s.table d ∧ i = t then e else s.phys f i := by
  simp [PagingState.putEntry]

theorem phys_addTable :
    (s.addTable d e).phys f i =
      if f = frameOf e ∧ i < 1024 then 0 else if f = s.cr3 ∧ i = d then e else s.phys f i := by
  simp [PagingState.addTable, PagingState.zeroed]

theorem keeps_putEntry (hp : Present (s.pde d)) (hap : s.table d ≠ s.cr3) :
    Keeps s (s.putEntry d t e) d t none where
  pdes j _ := .inl (pde_putEntry hap j)
  words f i hne := by
    rw [phys_putEntry] at hne
    by_cases hc : f = s.table d ∧ i = t
    · exact .inr (.inl ⟨hp, hc⟩)
    · rw [if_neg hc] at hne
      exact absurd rfl hne

theorem keeps_newTable {b flags : ℕ} (hb : b < 2 ^ 20) (hroot : b ≠ s.cr3) :
    Keeps s (((s.withPmm pmm).addTable d (b * 4096 ||| dirFlags flags)).putEntry d t e) d t
      (some b) := by
  obtain ⟨-, hfr⟩ := Wired.newEntry hb flags
  have hpde : ∀ i, (((s.withPmm pmm).addTable d (b * 4096 ||| dirFlags flags)).putEntry d t e).pde i =
      if i = d then b * 4096 ||| dirFlags flags else s.pde i := Wired.pde_newTable hb hroot
  have htab : ((s.withPmm pmm).addTable d (b * 4096 ||| dirFlags flags)).table d = b := by
    rw [table_addTable (by rwa [hfr]), if_pos rfl, hfr]
  refine ⟨?_, ?_⟩
  · intro j hj
    by_cases hjd : j = d
    · refine .inr ⟨hjd, ?_⟩
      rw [PagingState.table, hpde, if_pos hjd, hfr]
    · exact .inl ((hpde j).trans (if_neg hjd))
  · intro f i hne
    rw [phys_putEntry, htab, phys_addTable, hfr] at hne
    -- a changed word lies in the new table or is the entry that points at it
    by_cases hf : f = b
    · exact .inr (.inr (congrArg some hf.symm))
    · by_cases hdir : f = s.cr3 ∧ i = d
      · exact .inl hdir
      · rw [if_neg fun hc => hf hc.1, if_neg fun hc => hf hc.1] at hne
        exact absurd (if_neg hdir) hne

/-- Clearing an entry, with the directory entry cleared after it or not. -/
theorem keeps_removeEntry (hp : Present (s.pde d)) (hap : s.table d ≠ s.cr3) :
    Keeps s (s.removeEntry d t) d t none where
  pdes j _ := .inl (pde_removeEntry hap j)
  words f i hne := by
    rw [phys_removeEntry] at hne
    exact (keeps_putEntry (e := 0) hp hap).words f i hne

theorem Keeps.clearDir (h : Keeps s s' d t none) (hc : s'.cr3 = s.cr3) :
    Keeps s ((s'.withPmm pmm).setWord s'.cr3 d 0) d t none where
  pdes j hj := by
    have hpde := s'.pde_clearDir pmm d j
    by_cases hjd : j = d
    · rw [hpde, if_pos hjd] at hj
      exact absurd hj (by decide)
    · rw [if_neg hjd] at hpde
      rw [hpde] at hj ⊢
      exact .inl ((h.pdes j hj).resolve_right fun hr => absurd hr.2 (by simp))
  words f i hne := by
    rw [PagingState.phys_setWord, PagingState.phys_withPmm] at hne
    by_cases hdir : f = s'.cr3 ∧ i = d
    · exact .inl (hc ▸ hdir)
    · rw [if_neg hdir] at hne
      exact h.words f i hne

end Words

section Safety

variable {s : PagingState} {va physAddr flags : ℕ}

theorem Wired.unmapPage_safe (h : Wired s) (hva : va < 0xFFC00000) :
    (∃ m, Paging.unmapPage s va = .error (.panic m)) ∨
      ∃ s', Paging.unmapPage s va = .ok s' ∧ Keeps s s' (dirIndex va) (tabIndex va) none := by
  have hd := dirIndex_lt hva
  rw [unmapPage_eq h.rooted h.enabled hva]
  by_cases hp : Present (s.pde (dirIndex va))
  swap
  · rw [if_neg hp]
    exact .inl ⟨_, rfl⟩
  rw [if_pos hp]
  have hap := h.rooted.apart _ hd hp
  -- the entry first, present or not
  obtain ⟨r, hr, hw, hcr3, hkeep⟩ : ∃ r, (if Present (s.pte (dirIndex va) (tabIndex va)) then
      s.removeEntry (dirIndex va) (tabIndex va) else s) = r ∧ Wired r ∧ r.cr3 = s.cr3 ∧
      Keeps s r (dirIndex va) (tabIndex va) none := by
    by_cases hpt : Present (s.pte (dirIndex va) (tabIndex va))
    · exact ⟨_, if_pos hpt, h.removeEntry hd hp, rfl, keeps_removeEntry hp hap⟩
    · exact ⟨s, if_neg hpt, h, rfl, ⟨fun _ _ => .inl rfl, fun _ _ hne => absurd rfl hne⟩⟩
  rw [hr, dropTable_eq hw.rooted (by omega)]
  by_cases hz : r.refCounter (dirIndex va) = 0 ∧ dirIndex va < 768
  swap
  · rw [if_neg hz]
    exact .inr ⟨r, rfl, hkeep⟩
  rw [if_pos hz, pmmFreeFrame_eq]
  split_ifs
  -- `pmm_free_frame` skips a frame beyond memory and panics on one that is free
  · exact .inr ⟨_, rfl, hkeep.clearDir hcr3⟩
  · exact .inr ⟨_, rfl, hkeep.clearDir hcr3⟩
  · exact .inl ⟨_, rfl⟩

/-- `map_page` is safe when the table exists or the allocator has a frame for it. -/
theorem Wired.mapPage_safe (h : Wired s) (hva : va < 0xFFC00000)
    (hf : (Call.map va physAddr flags).TableFound s) : (Call.map va physAddr flags).Safe s := by
  by_cases hp : Present (s.pde (dirIndex va))
  · refine .inr ⟨_, h.mapPage_present hva hp physAddr flags, ?_⟩
    rw [granted_of_present hp]
    exact keeps_putEntry hp (h.rooted.apart _ (dirIndex_lt hva) hp)
  · obtain ⟨b, pmm, ha, hb, -⟩ := h.pmmAllocFrame
    obtain ⟨c, hg⟩ := hf ⟨hp, rfl⟩
    have hg' := granted_map hp ha physAddr flags
    by_cases hzero : b = 0
    · rw [hg, if_pos hzero] at hg'
      cases hg'
    · rw [if_neg hzero] at hg'
      by_cases hroot : b = s.cr3
      · subst hroot
        exact .inl (.inr ⟨h.mapPage_fault hva hp ha hb physAddr flags, hg'⟩)
      · refine .inr ⟨_, h.mapPage_absent hva hp ha hb hroot physAddr flags, ?_⟩
        rw [hg']
        exact keeps_newTable hb hroot

/-- The call of `alloc_page` once it has its frame. -/
theorem safe_alloc {b : ℕ} {pmm : PmmState} (hb : b ≠ 0)
    (ha : pmmAllocFrame s.pmm = .ok (b * 4096, pmm))
    (he : allocPage s va flags = mapPage (s.withPmm pmm) va (b * 4096) flags) :
    (Call.alloc va flags).Safe s ↔ (Call.map va (b * 4096) flags).Safe (s.withPmm pmm) := by
  have hg := granted_alloc hb ha va flags
  simp only [Call.Safe, Call.Halts, hg, Call.exec, he]
  refine or_congr Iff.rfl (exists_congr fun s' => and_congr_right fun _ => ?_)
  exact ⟨fun hk => ⟨hk.pdes, hk.words⟩, fun hk => ⟨hk.pdes, hk.words⟩⟩

/-- Without a frame the new table lands on frame 0, which is cleared for it. -/
theorem Wired.mapPage_zero (h : Wired s) (hva : va < 0xFFC00000) (hroot : s.cr3 ≠ 0)
    (hp : ¬ Present (s.pde (dirIndex va))) {pmm : PmmState}
    (ha : Pmm.pmmAllocFrame s.pmm = .ok (0, pmm)) (physAddr flags : ℕ) :
    ∃ s', Paging.mapPage s va physAddr flags = .ok s' ∧ Present (s'.pde (dirIndex va)) ∧
      s'.table (dirIndex va) = 0 ∧ ∀ i < 1024, i ≠ tabIndex va → s'.phys 0 i = 0 := by
  have hb : 0 < 2 ^ 20 := by decide
  have ha : Pmm.pmmAllocFrame s.pmm = .ok (0 * 4096, pmm) := ha
  obtain ⟨hpe, hfr⟩ := newEntry hb flags
  refine ⟨_, h.mapPage_absent hva hp ha hb hroot.symm physAddr flags, ?_, ?_, ?_⟩
  · rwa [pde_newTable hb hroot.symm, if_pos rfl]
  · rw [PagingState.table, pde_newTable hb hroot.symm, if_pos rfl, hfr]
  · intro i hi hit
    rw [phys_putEntry, if_neg fun hc => hit hc.2, phys_addTable, if_pos ⟨hfr.symm, hi⟩]

theorem Wired.not_safe_map (h : Wired s) (hva : va < 0xFFC00000) (hroot : s.cr3 ≠ 0)
    (hf : ¬ (Call.map va physAddr flags).TableFound s) :
    ¬ (Call.map va physAddr flags).Safe s := by
  have hp : ¬ Present (s.pde (dirIndex va)) := fun hp => hf fun hn => absurd hp hn.1
  obtain ⟨b, pmm, ha, -⟩ := h.pmmAllocFrame
  have hg := granted_map hp ha physAddr flags
  by_cases hzero : b = 0
  swap
  · rw [if_neg hzero] at hg
    exact absurd (fun _ => ⟨b, hg⟩) hf
  subst hzero
  rw [if_pos rfl] at hg
  obtain ⟨r, he, hpres, -⟩ := h.mapPage_zero hva hroot hp (by simpa using ha) physAddr flags
  -- the call returns with a present entry that was neither there nor granted
  rintro ((⟨m, hpanic⟩ | ⟨⟨a, hfault⟩, -⟩) | ⟨s', hok, hkeep⟩)
  · cases he.symm.trans hpanic
  · cases he.symm.trans hfault
  · obtain rfl : r = s' := Except.ok.inj (he.symm.trans hok)
    rcases hkeep.pdes _ hpres with hsame | ⟨-, hsome⟩
    · rw [hsame] at hpres
      exact hp hpres
    · rw [hg] at hsome
      cases hsome

theorem Wired.safe_map_iff (h : Wired s) (hroot : s.cr3 ≠ 0) (hva : va < 0xFFC00000) :
    (Call.map va physAddr flags).Safe s ↔ (Call.map va physAddr flags).TableFound s := by
  constructor
  · intro hs
    by_contra hf
    exact h.not_safe_map hva hroot hf hs
  · exact h.mapPage_safe hva

theorem Wired.safe_alloc_iff (h : Wired s) (hroot : s.cr3 ≠ 0) (hva : va < 0xFFC00000) :
    (Call.alloc va flags).Safe s ↔ (Call.alloc va flags).TableFound s := by
  obtain ⟨b, pmm, ha, -, hw⟩ := h.pmmAllocFrame
  have he := allocPage_eq h.rooted h.enabled hva ha flags
  by_cases hm : Present (s.pde (dirIndex va)) ∧ Present (s.pte (dirIndex va) (tabIndex va))
  · rw [if_pos hm] at he
    exact ⟨fun _ hn => absurd hm.1 hn.1, fun _ => .inl (.inl ⟨_, he⟩)⟩
  rw [if_neg hm] at he
  by_cases hb : b = 0
  · subst hb
    rw [if_pos (Nat.zero_mul 4096)] at he
    -- no frame for the page itself: `alloc_page` panics and asks for no table
    refine ⟨fun _ hn => ?_, fun _ => .inl (.inl ⟨_, he⟩)⟩
    have hnone := hn.2
    simp [Call.allocator, ha] at hnone
  · rw [if_neg (by omega)] at he
    rw [safe_alloc hb ha he, tableFound_alloc hb ha]
    exact hw.safe_map_iff hroot hva

theorem Wired.freePage_safe (h : Wired s) (hva : va < 0xFFC00000) :
    (∃ m, Paging.freePage s va = .error (.panic m)) ∨
      ∃ s', Paging.freePage s va = .ok s' ∧ Keeps s s' (dirIndex va) (tabIndex va) none := by
  rw [freePage_eq h.rooted h.enabled hva]
  split_ifs
  · cases hfree : Pmm.pmmFreeFrame s.pmm
      (frameOf (s.pte (dirIndex va) (tabIndex va)) * 4096) with
    | error stop =>
      rw [pmmFreeFrame_eq] at hfree
      split_ifs at hfree
      cases hfree
      exact .inl ⟨_, rfl⟩
    | ok pmm =>
      rcases (h.pmmFreeFrame hfree).unmapPage_safe hva with hpanic | ⟨s', hok, hkeep⟩
      · exact .inl hpanic
      · exact .inr ⟨s', hok, hkeep.pdes, hkeep.words⟩
  · exact .inl ⟨_, rfl⟩
  · exact .inl ⟨_, rfl⟩

/-- A call is safe exactly when the allocator has a frame for the table it needs. -/
theorem Wired.safe_iff (h : Wired s) (hroot : s.cr3 ≠ 0) (c : Call)
    (hva : c.address < 0xFFC00000) : c.Safe s ↔ c.TableFound s := by
  cases c with
  | map va physAddr flags => exact h.safe_map_iff hroot hva
  | alloc va flags => exact h.safe_alloc_iff hroot hva
  | unmap va =>
    refine ⟨fun _ hn => absurd hn.2 (by simp [Call.allocator]), fun _ => ?_⟩
    have hg : (Call.unmap va).granted s = none := by simp [Call.granted, Call.allocator]
    rcases h.unmapPage_safe hva with hpanic | ⟨s', hok, hkeep⟩
    · exact .inl (.inl hpanic)
    · exact .inr ⟨s', hok, hg ▸ hkeep⟩
  | free va =>
    refine ⟨fun _ hn => absurd hn.2 (by simp [Call.allocator]), fun _ => ?_⟩
    have hg : (Call.free va).granted s = none := by simp [Call.granted, Call.allocator]
    rcases h.freePage_safe hva with hpanic | ⟨s', hok, hkeep⟩
    · exact .inl (.inl hpanic)
    · exact .inr ⟨s', hok, hg ▸ hkeep⟩

end Safety

section Ledgers

/-- The machine with the frame last handed out for each page table, or its boot frame. -/
structure Ledger where
  state : PagingState
  tables : ℕ → Option ℕ

/-- The ledger after a call: a granted frame is entered at the call's index. -/
def Call.enter (c : Call) (s : PagingState) (tables : ℕ → Option ℕ) : ℕ → Option ℕ :=
  match c.granted s with
  | some b => Function.update tables (dirIndex c.address) (some b)
  | none => tables

/-- One call that returns and found its table. -/
inductive Ledger.Step : Ledger → Ledger → Prop where
  | call {k : Ledger} {s' : PagingState} (c : Call) :
      c.address < 0xFFC00000 → c.TableFound k.state → c.exec k.state = .ok s' →
      Step k ⟨s', c.enter k.state k.tables⟩

def BootFrames.ledger {l : Layout} (f : BootFrames l) (ram : ℕ → ℕ → ℕ) (p : PmmState) : Ledger where
  state := (f.start ram p).state
  tables d := if d = 768 then some f.table else if d = 1023 then some f.dir else none

/-- Every present directory entry points at the frame in the ledger, never at frame 0. -/
structure Ledger.Kept (k : Ledger) : Prop where
  wired : Wired k.state
  entered : ∀ d < 1024, Present (k.state.pde d) →
    k.state.table d ≠ 0 ∧ k.tables d = some (k.state.table d)

variable {k k' : Ledger}

theorem Ledger.Kept.root_pos (h : k.Kept) : k.state.cr3 ≠ 0 := by
  rw [← h.wired.rooted.root]
  exact (h.entered 1023 (by decide) h.wired.rooted.slot).1

theorem Ledger.Kept.step (h : k.Kept) (hs : k.Step k') : k'.Kept := by
  obtain ⟨c, hva, hfound, he⟩ := hs
  refine ⟨h.wired.exec hva he, ?_⟩
  -- the call returned, so it is safe in the sense of `Keeps`
  rcases (h.wired.safe_iff h.root_pos c hva).mpr hfound with
    (⟨m, hpanic⟩ | ⟨⟨a, hfault⟩, -⟩) | ⟨s', hok, hkeep⟩
  · cases he.symm.trans hpanic
  · cases he.symm.trans hfault
  obtain rfl : s' = _ := Except.ok.inj (hok.symm.trans he)
  intro d hd hp
  rcases hkeep.pdes d hp with hsame | ⟨hdc, hg⟩
  · rw [hsame] at hp
    obtain ⟨hne, hentry⟩ := h.entered d hd hp
    have htab : s'.table d = k.state.table d := by
      rw [PagingState.table, hsame, PagingState.table]
    rw [htab]
    refine ⟨hne, ?_⟩
    change c.enter k.state k.tables d = _
    rw [← hentry, Call.enter]
    -- a frame is granted only where no entry was present, so this one keeps its line
    cases hg : c.granted k.state with
    | none => rfl
    | some b =>
      have hdc : d ≠ dirIndex c.address := by
        rintro rfl
        rw [granted_of_present hp] at hg
        cases hg
      exact Function.update_of_ne hdc _ _
  · refine ⟨h.wired.granted_ne_zero hg, ?_⟩
    change c.enter k.state k.tables d = _
    rw [Call.enter, hg, hdc]
    exact Function.update_self _ _ _

theorem Ledger.Kept.run (h : k.Kept) (hr : Relation.ReflTransGen Ledger.Step k k') : k'.Kept := by
  induction hr with
  | refl => exact h
  | tail _ hs ih => exact ih.step hs

theorem BootFrames.ledger_kept {l : Layout} (f : BootFrames l) {ram : ℕ → ℕ → ℕ} {p : PmmState}
    (hgood : (f.start ram p).Good) : (f.ledger ram p).Kept := by
  refine ⟨hgood.sound.wired, ?_⟩
  intro d hd hp
  have hhigh := l.higherHalf
  have hdir := f.dirStart
  have htable := f.tableStart
  change Present ((f.start ram p).state.pde d) at hp
  change (f.start ram p).state.table d ≠ 0 ∧
    (if d = 768 then some f.table else if d = 1023 then some f.dir else none) =
      some ((f.start ram p).state.table d)
  rw [f.pde_start, present_bootDirectory] at hp
  rcases hp with rfl | rfl
  · rw [f.table_start, if_pos rfl]
    exact ⟨by omega, rfl⟩
  · rw [f.root_start, if_neg (by decide), if_pos rfl]
    exact ⟨by omega, rfl⟩

end Ledgers

section Frames

variable {s : PagingState} {owned : Finset ℕ}

/-- Enough free frames for the table the call needs. `alloc_page` takes one for the page
first, and panics if there is none at all. -/
def Call.EnoughFrames (s : PagingState) : Call → Prop
  | map va _ _ => Present (s.pde (dirIndex va)) ∨ ∃ b, s.pmm.Free b
  | alloc va _ => Present (s.pde (dirIndex va)) ∨ (∀ b, ¬ s.pmm.Free b) ∨
      ∃ b c, b ≠ c ∧ s.pmm.Free b ∧ s.pmm.Free c
  | unmap _ => True
  | free _ => True

theorem Tables.handedOut_iff (h : Tables s) : (∃ b, handedOut s.pmm = some b) ↔ ∃ b, s.pmm.Free b := by
  rcases pmmAllocFrame_spec h.padded h.maxBlocks_le with ⟨b, hb, ha⟩ | ⟨hnone, ha⟩
  · refine ⟨fun _ => ⟨b, hb.free⟩, fun _ => ⟨b, ?_⟩⟩
    rw [handedOut_eq ha, if_neg (h.free_apart hb.free).1]
  · have hzero : handedOut s.pmm = none := by
      rw [handedOut, ha]
      rfl
    rw [hzero]
    constructor
    · rintro ⟨b, hb⟩
      cases hb
    · rintro ⟨b, hb⟩
      exact absurd hb (hnone b)

theorem Tables.tableFound_map_iff (h : Tables s) {va physAddr flags : ℕ} :
    (Call.map va physAddr flags).TableFound s ↔ (Call.map va physAddr flags).EnoughFrames s := by
  by_cases hp : Present (s.pde (dirIndex va))
  · exact ⟨fun _ => .inl hp, fun _ hn => absurd hp hn.1⟩
  · have hg : (Call.map va physAddr flags).granted s = handedOut s.pmm := if_neg hp
    rw [Call.TableFound, hg, h.handedOut_iff]
    exact ⟨fun hf => .inr (hf ⟨hp, rfl⟩), fun he _ => he.resolve_left hp⟩

theorem Tables.tableFound_alloc_iff (h : Tables s) {va flags : ℕ} :
    (Call.alloc va flags).TableFound s ↔ (Call.alloc va flags).EnoughFrames s := by
  by_cases hp : Present (s.pde (dirIndex va))
  · exact ⟨fun _ => .inl hp, fun _ hn => absurd hp hn.1⟩
  rcases pmmAllocFrame_spec h.padded h.maxBlocks_le with ⟨b, hb, ha⟩ | ⟨hnone, ha⟩
  · have hb0 := (h.free_apart hb.free).1
    rw [tableFound_alloc hb0 ha va flags, (h.allot b).tableFound_map_iff]
    constructor
    · rintro (hc | ⟨c, hc⟩)
      · exact absurd hc hp
      · refine .inr (.inr ⟨b, c, ?_, hb.free, free_of_allotted hc⟩)
        rintro rfl
        exact not_free_allotted s.pmm b hc
    · rintro (hc | hc | ⟨c, c', hne, hc, hc'⟩)
      · exact absurd hc hp
      · exact absurd hb.free (hc b)
      · -- one of the two is not the frame of the page
        refine .inr ?_
        by_cases hcb : c = b
        · exact ⟨c', free_allotted (fun he => hne (hcb.trans he.symm)) hc'⟩
        · exact ⟨c, free_allotted hcb hc⟩
  · refine ⟨fun _ => .inr (.inl hnone), fun _ hn => ?_⟩
    have hsome := hn.2
    simp [Call.allocator, ha] at hsome

theorem Tables.tableFound_iff (h : Tables s) (c : Call) : c.TableFound s ↔ c.EnoughFrames s := by
  cases c with
  | map va physAddr flags => exact h.tableFound_map_iff
  | alloc va flags => exact h.tableFound_alloc_iff
  | unmap va => exact ⟨fun _ => trivial, fun _ hn => absurd hn.2 (by simp [Call.allocator])⟩
  | free va => exact ⟨fun _ => trivial, fun _ hn => absurd hn.2 (by simp [Call.allocator])⟩

theorem Growable.mapPage_returns (h : Growable s) (hw : Wired s) {va : ℕ} (hva : va < 0xFFC00000)
    (physAddr flags : ℕ) : ∃ s', mapPage s va physAddr flags = .ok s' := by
  by_cases hp : Present (s.pde (dirIndex va))
  · exact ⟨_, hw.mapPage_present hva hp physAddr flags⟩
  · obtain ⟨b, pmm, ha, -, hb, hroot⟩ := h.pmmAllocFrame
    exact ⟨_, hw.mapPage_absent hva hp ha hb hroot physAddr flags⟩

/-- As long as the directory's frame is not free no call faults. -/
theorem Growable.exec_ne_fault (h : Growable s) (hw : Wired s) (c : Call)
    (hva : c.address < 0xFFC00000) (a : ℕ) : c.exec s ≠ .error (.fault a) := by
  intro he
  cases c with
  | map va physAddr flags =>
    obtain ⟨s', hok⟩ := h.mapPage_returns hw hva physAddr flags
    cases hok.symm.trans he
  | alloc va flags =>
    obtain ⟨b, pmm, ha, hg, -⟩ := h.pmmAllocFrame
    have hw' : Wired (s.withPmm pmm) := hw.withPmm hg.padded hg.maxBlocks_le
    have he := (allocPage_eq hw.rooted hw.enabled hva ha flags).symm.trans he
    split_ifs at he
    · cases he
    · cases he
    · obtain ⟨s', hok⟩ := hg.mapPage_returns hw' hva (b * 4096) flags
      cases hok.symm.trans he
  | unmap va =>
    rcases hw.unmapPage_safe hva with ⟨m, hp⟩ | ⟨s', hok, -⟩
    · cases hp.symm.trans he
    · cases hok.symm.trans he
  | free va =>
    rcases hw.freePage_safe hva with ⟨m, hp⟩ | ⟨s', hok, -⟩
    · cases hp.symm.trans he
    · cases hok.symm.trans he

end Frames

section Results

/-- In every run whose calls found the page tables they needed, each present directory
entry points at the frame handed out for it, and the next call stays safe exactly when
it finds its table as well. In runs that free owned pages only, finding it is a matter
of the free frames left, and the machine never stops by a fault. -/
theorem tables_from_allocator_iff (l : Layout) (mem : Mem) (mbd : MultibootInfo)
    (es : List MmapEntry) (hm : MemoryMap mem mbd es) (ho : ∀ e ∈ es, e.Ordinary)
    (f : BootFrames l) (ram : ℕ → ℕ → ℕ) :
    ∃ p, pmmInit l mem mbd = .ok p ∧
      (∀ k, Relation.ReflTransGen Ledger.Step (f.ledger ram p) k →
        (∀ d < 1024, Present (k.state.pde d) →
          k.state.table d ≠ 0 ∧ k.tables d = some (k.state.table d)) ∧
        ∀ c : Call, c.address < 0xFFC00000 → (c.Safe k.state ↔ c.TableFound k.state)) ∧
      ∀ k, Relation.ReflTransGen Tracked.ProperStep (f.start ram p) k →
        ∀ c : Call, c.address < 0xFFC00000 →
          (c.TableFound k.state ↔ c.EnoughFrames k.state) ∧
          ∀ a, c.exec k.state ≠ .error (.fault a) := by
  obtain ⟨p, hp, hgood⟩ := f.start_good hm ho ram
  refine ⟨p, hp, ?_, ?_⟩
  · intro k hr
    have hk := (f.ledger_kept hgood).run hr
    exact ⟨hk.entered, hk.wired.safe_iff hk.root_pos⟩
  · intro k hr c hva
    obtain ⟨hk, hcr3⟩ := hgood.properRun hr
    have hroot : k.state.cr3 ≠ 0 := by
      rw [hcr3]
      exact f.dir_ne_zero
    exact ⟨hk.sound.tables.tableFound_iff c,
      (hk.sound.growable hroot).exec_ne_fault hk.sound.wired c hva⟩

/-- A table is made and dropped below the kernel half. -/
theorem tables_from_allocator_iff_sample :
    ∃ p s₁ s₂, pmmInit sampleLayout sampleMap ⟨0x1000, 24⟩ = .ok p ∧
      (Call.alloc 0x400000 3).Safe (sampleFrames.start (fun _ _ => 0) p).state ∧
      allocPage (sampleFrames.start (fun _ _ => 0) p).state 0x400000 3 = .ok s₁ ∧
      (Present (s₁.pde 1) ∧ s₁.table 1 ≠ 0) ∧ (Call.free 0x400000).Safe s₁ ∧
      freePage s₁ 0x400000 = .ok s₂ ∧ ∀ a, allocPage s₂ 0x400000 3 ≠ .error (.fault a) := by
  obtain ⟨p, hp, hledger, hproper⟩ := tables_from_allocator_iff sampleLayout sampleMap ⟨0x1000, 24⟩
    [sampleEntry] sampleMap_wellFormed sampleEntry_ordinary sampleFrames fun _ _ => 0
  obtain ⟨p', s₁, s₂, hp', ha, hok, ⟨hpresent, -⟩, hfree⟩ := sample_pages
  obtain ⟨q, hq, hi⟩ := pmmInit_ok sampleLayout sampleMap_wellFormed sampleEntry_ordinary
  cases hp.symm.trans hp'
  cases hp.symm.trans hq
  obtain ⟨h1, h2, -⟩ := sample_free hi
  have hr := Relation.ReflTransGen.single (Tracked.ProperStep.call (.alloc 0x400000 3) ha hok)
  have hr' := hr.tail (.call (.free 0x400000) ⟨by decide, Finset.mem_insert_self _ _⟩ hfree)
  have hfound : (Call.alloc 0x400000 3).TableFound (sampleFrames.start (fun _ _ => 0) p).state :=
    (hproper _ .refl _ (by decide)).1.mpr (.inr (.inr ⟨0x200, 0x201, by decide, h1, h2⟩))
  have hstep : (sampleFrames.ledger (fun _ _ => 0) p).Step ⟨s₁, _⟩ := .call _ (by decide) hfound hok
  obtain ⟨hentered, hsafe⟩ := hledger _ (.single hstep)
  exact ⟨p, s₁, s₂, hp, ((hledger _ .refl).2 _ (by decide)).mpr hfound, hok,
    ⟨hpresent, (hentered 1 (by decide) hpresent).1⟩,
    (hsafe _ (by decide)).mpr ((hproper _ hr (.free 0x400000) (by decide)).1.mpr trivial), hfree,
    (hproper _ hr' (.alloc 0x400000 3) (by decide)).2⟩

end Results

section Cramped

/-- RAM for the kernel image, the bitmap and one more frame. -/
def crampedMap : Mem := fun i =>
  if i = 0xC0001000 then 20 else if i = 0xC0001006 then 0x10 else if i = 0xC000100D then 0x20
  else if i = 0xC000100E then 2 else if i = 0xC0001014 then 1 else 0

def crampedEntry : MmapEntry := { size := 20, addr := 0x100000, len := 0x22000, type := 1 }

theorem crampedMap_wellFormed : MemoryMap crampedMap ⟨0x1000, 24⟩ [crampedEntry] :=
  ⟨by decide, by decide, by decide, rfl⟩

theorem crampedEntry_ordinary : ∀ e ∈ [crampedEntry], e.Ordinary := by
  intro e he
  obtain rfl : e = crampedEntry := by simpa using he
  exact ⟨fun _ => by decide, fun _ => by decide, fun _ => by decide⟩

theorem cramped_free {p : PmmState} (hi : Initialized sampleLayout [crampedEntry] p) {j : ℕ} :
    p.Free j ↔ j = 0x121 := by
  have hmax : p.maxBlocks = 0x122 := hi.maxBlocks.trans (by decide)
  constructor
  · intro hj
    obtain ⟨⟨e, he, -, hlow, hhigh⟩, hpr⟩ := hi.grantable crampedEntry_ordinary hj
    obtain rfl : e = crampedEntry := by simpa using he
    rw [hmax] at hpr
    have hsize : bitmapSizeBytes 0x122 = 40 := by decide
    unfold Layout.Protects Meets at hpr
    rw [hsize] at hpr
    simp only [sampleLayout, crampedEntry] at hpr hlow hhigh
    omega
  · rintro rfl
    refine ⟨by rw [hmax]; decide, ?_⟩
    rw [hi.bit, hmax]
    decide

/-- One frame is left. `alloc_page` takes it for the page and `map_page` goes on with
frame 0, which it clears and enters in the directory. -/
theorem table_at_frame_zero :
    ∃ p s', pmmInit sampleLayout crampedMap ⟨0x1000, 24⟩ = .ok p ∧ ¬ p.Free 0 ∧
      allocPage (sampleFrames.start (fun _ _ => 7) p).state 0x400000 (ptePresent ||| pteRw) =
        .ok s' ∧
      Present (s'.pde 1) ∧ s'.table 1 = 0 ∧
      (sampleFrames.start (fun _ _ => 7) p).state.phys 0 5 = 7 ∧ s'.phys 0 5 = 0 := by
  obtain ⟨p, hp, hi⟩ := pmmInit_ok sampleLayout crampedMap_wellFormed crampedEntry_ordinary
  have hsound := sampleFrames.start_sound (fun _ _ => 7) crampedEntry_ordinary hi
  have hfree := @cramped_free p hi
  set s := (sampleFrames.start (fun _ _ => 7) p).state with hs
  have habs : ¬ Present (s.pde (dirIndex 0x400000)) := by
    rw [hs, sampleFrames.pde_start]
    decide
  have hfirst : pmmAllocFrame s.pmm = .ok (0x121 * 4096, p.allotted 0x121) := by
    rcases pmmAllocFrame_spec hsound.tables.padded hsound.tables.maxBlocks_le with
      ⟨b, hb, ha⟩ | ⟨hnone, -⟩
    · have hb' : b = 0x121 := hfree.mp hb.free
      rw [ha, hb']
      rfl
    · exact absurd (hfree.mpr rfl) (hnone 0x121)
  have hsecond : pmmAllocFrame (p.allotted 0x121) = .ok (0, p.allotted 0x121) := by
    have ht := hsound.tables.allot 0x121
    rcases pmmAllocFrame_spec ht.padded ht.maxBlocks_le with ⟨b, hb, -⟩ | ⟨-, ha⟩
    · have hb' : b = 0x121 := hfree.mp (Tables.free_of_allotted hb.free)
      exact absurd (hb' ▸ hb.free) (Tables.not_free_allotted p 0x121)
    · exact ha
  have hw : Wired (s.withPmm (p.allotted 0x121)) :=
    hsound.wired.withPmm (hsound.tables.allot 0x121).padded hsound.tables.maxBlocks_le
  have hroot : s.cr3 ≠ 0 := by
    change 0x110 ≠ 0
    decide
  obtain ⟨s', hmap, hpres, htab, hclear⟩ := hw.mapPage_zero
    (by decide : 0x400000 < 0xFFC00000) hroot habs hsecond (0x121 * 4096) (ptePresent ||| pteRw)
  refine ⟨p, s', hp, fun hz => absurd (hfree.mp hz) (by decide), ?_, hpres, htab, rfl,
    hclear 5 (by decide) (by decide)⟩
  rw [allocPage_eq hsound.tables.rooted hsound.enabled (by decide) hfirst,
    if_neg fun hc => habs hc.1, if_neg (by decide)]
  exact hmap

end Cramped
end KallarOS.Paging
