import KallarOS.PagingGrowth

namespace KallarOS.Paging
open Pmm ByteMemory

/-- What every call below the recursive window keeps, whatever it maps, with whatever
flags, and whatever frames it gives back. -/
structure Wired (s : PagingState) : Prop where
  enabled : s.pagingEnabled = true
  rooted : Rooted s
  padded : s.pmm.Padded
  maxBlocks_le : s.pmm.maxBlocks ≤ 2 ^ 20

theorem Sound.wired {s : PagingState} {owned : Finset ℕ} (h : Sound s owned) : Wired s :=
  ⟨h.enabled, h.tables.rooted, h.tables.padded, h.tables.maxBlocks_le⟩

section Directory

variable {s : PagingState} {d e : ℕ}

/-- `memset` through the window of a table that lies on the directory clears the
directory, up to the entry that the window itself needs. -/
theorem memsetZero_root (h : Rooted s) (hd : d < 1023) (he : Present e) (hf : frameOf e = s.cr3)
    {n : ℕ} (hn : n ≤ d + 1) :
    memsetZero (s.setWord s.cr3 d e) (recursiveTablePtr d) n =
      .ok ((s.setWord s.cr3 d e).zeroed s.cr3 n) := by
  induction n with
  | zero => rw [memsetZero, PagingState.zeroed_zero]
  | succ n ih =>
    -- entries from `n` on are still there: `d`, which the window needs, and the recursive slot
    let z := (s.setWord s.cr3 d e).zeroed s.cr3 n
    have hpde : ∀ i, n ≤ i → z.pde i = if i = d then e else s.pde i := by
      intro i hi
      rw [← PagingState.pde_setDir]
      exact if_neg fun hc => absurd hc.2 (by omega)
    have hslot : z.pde 1023 = s.pde 1023 := by rw [hpde _ (by omega), if_neg (by omega)]
    have hself : z.pde d = e := by rw [hpde _ (by omega), if_pos rfl]
    have hroot : z.table 1023 = z.cr3 := by
      rw [PagingState.table, hslot]
      exact h.root
    have htab : z.table d = s.cr3 := by rw [PagingState.table, hself, hf]
    have htr := translate_window (s := z) (d := d) (t := n) (hslot.symm ▸ h.slot) hroot
      (by omega) (by omega)
    rw [hself, if_pos he, htab] at htr
    have hi : (recursiveTablePtr d + 4 * n) % 4096 / 4 = n := by unfold recursiveTablePtr; omega
    simp only [memsetZero, ih (by omega), Outcome.ok_bind, vwrite]
    rw [htr, Outcome.ok_bind, hi, Outcome.pure_eq_ok, PagingState.setWord_zeroed]

theorem memsetZero_error {va m n : ℕ} {stop : Stop} (h : memsetZero s va m = .error stop)
    (hmn : m ≤ n) : memsetZero s va n = .error stop := by
  induction n, hmn using Nat.le_induction with
  | base => exact h
  | succ n _ ih => rw [memsetZero, ih, Outcome.error_bind]

/-- A table installed on the directory's own frame takes its window away while it is
being cleared. -/
theorem installTable_fault (h : Rooted s) (hd : d < 1023) {flags newFrame : ℕ} {pmm : PmmState}
    (ha : pmmAllocFrame s.pmm = .ok (newFrame, pmm))
    (hp : Present (newFrame ||| dirFlags flags))
    (hf : frameOf (newFrame ||| dirFlags flags) = s.cr3) :
    ∃ va, installTable s d flags = .error (.fault va) := by
  have hr : Rooted (s.withPmm pmm) := h.withPmm pmm
  let z := ((s.withPmm pmm).setWord s.cr3 d (newFrame ||| dirFlags flags)).zeroed s.cr3 (d + 1)
  have hclear : memsetZero ((s.withPmm pmm).setWord s.cr3 d (newFrame ||| dirFlags flags))
      (recursiveTablePtr d) (d + 1) = .ok z := memsetZero_root hr hd hp hf (le_refl _)
  have hslot : z.pde 1023 = s.pde 1023 := by
    have : ¬ (1023 : ℕ) = d := by omega
    have h' : ¬ (1023 : ℕ) ≤ d := by omega
    simp [z, PagingState.pde, PagingState.zeroed, this, h']
  -- the turn for entry `d` has cleared it, and the next store goes through it
  have hself : z.pde d = 0 := by simp [z, PagingState.pde, PagingState.zeroed]
  have hroot : z.table 1023 = z.cr3 := by
    rw [PagingState.table, hslot]
    exact h.root
  have htr := translate_window (s := z) (d := d) (t := d + 1) (hslot.symm ▸ h.slot) hroot
    (by omega) (by omega)
  have habs : ¬ Present 0 := by decide
  rw [hself, if_neg habs] at htr
  have hstop : memsetZero ((s.withPmm pmm).setWord s.cr3 d (newFrame ||| dirFlags flags))
      (recursiveTablePtr d) (d + 2) = .error (.fault (recursiveTablePtr d + 4 * (d + 1))) := by
    rw [memsetZero, hclear, Outcome.ok_bind, vwrite, htr, Outcome.error_bind]
  refine ⟨recursiveTablePtr d + 4 * (d + 1), ?_⟩
  simp only [installTable, ha, Outcome.ok_bind]
  change (vwrite (s.withPmm pmm) _ _ >>= _) = _
  rw [vwrite_dir hr (by omega), Outcome.ok_bind]
  exact memsetZero_error hstop (by omega)

end Directory

namespace Wired

variable {s s' : PagingState} {d t e va physAddr flags : ℕ}

theorem withPmm (h : Wired s) {pmm : PmmState} (hpad : pmm.Padded) (hmax : pmm.maxBlocks ≤ 2 ^ 20) :
    Wired (s.withPmm pmm) :=
  ⟨h.enabled, h.rooted.withPmm pmm, hpad, hmax⟩

/-- The frame allocator always answers, if only with frame 0. -/
theorem pmmAllocFrame (h : Wired s) :
    ∃ b pmm, pmmAllocFrame s.pmm = .ok (b * 4096, pmm) ∧ b < 2 ^ 20 ∧ Wired (s.withPmm pmm) := by
  rcases pmmAllocFrame_spec h.padded h.maxBlocks_le with ⟨b, hb, he⟩ | ⟨-, he⟩
  · have hmax := h.maxBlocks_le
    have hlt := hb.free.1
    refine ⟨b, _, he, by omega, h.withPmm ?_ hmax⟩
    intro j hj hw
    rw [PmmState.bit_allotted, h.padded j hj hw, Bool.or_true]
  · exact ⟨0, s.pmm, by simpa using he, by decide, h.withPmm h.padded h.maxBlocks_le⟩

theorem pmmFreeFrame (h : Wired s) {a : ℕ} {pmm : PmmState}
    (he : pmmFreeFrame s.pmm a = .ok pmm) : Wired (s.withPmm pmm) := by
  rw [pmmFreeFrame_eq] at he
  split_ifs at he with hout
  · cases he
    exact h.withPmm h.padded h.maxBlocks_le
  · cases he
    exact h.withPmm (Tables.padded_release h.padded (by omega)) h.maxBlocks_le

theorem putEntry (h : Wired s) (hd : d < 1023) (hp : Present (s.pde d)) :
    Wired (s.putEntry d t e) := by
  have hap := h.rooted.apart d hd hp
  refine ⟨by simpa using h.enabled, h.rooted.congr cr3_putEntry ?_, by simpa using h.padded,
    by simpa using h.maxBlocks_le⟩
  intro i
  have hpde := pde_putEntry (t := t) (e := e) hap i
  rwa [PagingState.pde, cr3_putEntry] at hpde

theorem removeEntry (h : Wired s) (hd : d < 1023) (hp : Present (s.pde d)) :
    Wired (s.removeEntry d t) :=
  ⟨h.enabled, h.rooted.congr rfl (pde_removeEntry (h.rooted.apart d hd hp)), h.padded,
    h.maxBlocks_le⟩

theorem addTable (h : Wired s) (hd : d < 1023) (he : frameOf e ≠ s.cr3) : Wired (s.addTable d e) :=
  ⟨h.enabled, h.rooted.addTable hd he, h.padded, h.maxBlocks_le⟩

/-- The directory entry of a new table. -/
theorem newEntry {b : ℕ} (hb : b < 2 ^ 20) (flags : ℕ) :
    Present (b * 4096 ||| dirFlags flags) ∧ frameOf (b * 4096 ||| dirFlags flags) = b :=
  ⟨(present_or (Nat.mul_mod_left b 4096) (dirFlags_lt flags)).mpr (dirFlags_present flags),
    Growable.frameOf_entry hb (dirFlags_lt flags)⟩

/-- `map_page` on a page whose table exists. -/
theorem mapPage_present (h : Wired s) (hva : va < 0xFFC00000)
    (hp : Present (s.pde (dirIndex va))) (physAddr flags : ℕ) :
    mapPage s va physAddr flags =
      .ok (s.putEntry (dirIndex va) (tabIndex va) (physAddr ||| flags)) := by
  have hd := dirIndex_lt hva
  rw [mapPage, if_pos h.enabled]
  exact mapPageEnabled_present h.rooted (by omega) (tabIndex_lt va) hp _ _

/-- `map_page` on a page without a table, when the allocator's answer is not the
directory's own frame. -/
theorem mapPage_absent (h : Wired s) (hva : va < 0xFFC00000)
    (hp : ¬ Present (s.pde (dirIndex va))) {b : ℕ} {pmm : PmmState}
    (ha : Pmm.pmmAllocFrame s.pmm = .ok (b * 4096, pmm)) (hb : b < 2 ^ 20) (hroot : b ≠ s.cr3)
    (physAddr flags : ℕ) :
    mapPage s va physAddr flags =
      .ok (((s.withPmm pmm).addTable (dirIndex va) (b * 4096 ||| dirFlags flags)).putEntry
        (dirIndex va) (tabIndex va) (physAddr ||| flags)) := by
  obtain ⟨hpe, hfr⟩ := newEntry hb flags
  rw [mapPage, if_pos h.enabled]
  exact mapPageEnabled_absent h.rooted (dirIndex_lt hva) (tabIndex_lt va) hp ha hpe
    (by rwa [hfr])

theorem mapPage_fault (h : Wired s) (hva : va < 0xFFC00000)
    (hp : ¬ Present (s.pde (dirIndex va))) {pmm : PmmState}
    (ha : Pmm.pmmAllocFrame s.pmm = .ok (s.cr3 * 4096, pmm)) (hb : s.cr3 < 2 ^ 20)
    (physAddr flags : ℕ) :
    ∃ a, mapPage s va physAddr flags = .error (.fault a) := by
  have hd := dirIndex_lt hva
  obtain ⟨hpe, hfr⟩ := newEntry hb flags
  obtain ⟨a, he⟩ := installTable_fault h.rooted hd ha hpe hfr
  refine ⟨a, ?_⟩
  rw [mapPage, if_pos h.enabled]
  simp only [mapPageEnabled, ensureTable, vread_dir h.rooted (by omega : dirIndex va < 1024),
    Outcome.ok_bind, if_pos (and_present_eq_zero.mpr hp), he, Outcome.error_bind]

/-- The directory after a table was entered and a page put into it. -/
theorem pde_newTable {pmm : PmmState} {b : ℕ} (hb : b < 2 ^ 20) (hroot : b ≠ s.cr3) (i : ℕ) :
    (((s.withPmm pmm).addTable d (b * 4096 ||| dirFlags flags)).putEntry d t e).pde i =
      if i = d then b * 4096 ||| dirFlags flags else s.pde i := by
  obtain ⟨-, hfr⟩ := newEntry hb flags
  have hne : frameOf (b * 4096 ||| dirFlags flags) ≠ (s.withPmm pmm).cr3 := by
    rw [hfr]
    exact hroot
  have hpde := pde_addTable (s := s.withPmm pmm) (d := d) hne
  have htab : ((s.withPmm pmm).addTable d (b * 4096 ||| dirFlags flags)).table d ≠ s.cr3 := by
    rw [PagingState.table, hpde, if_pos rfl]
    exact hne
  rw [pde_putEntry htab, hpde]
  rfl

/-- What a `map_page` that returns has done: an entry in a table that was there, or a
table from the allocator's answer with this one entry. -/
theorem mapPage_returned (h : Wired s) (hva : va < 0xFFC00000)
    (he : mapPage s va physAddr flags = .ok s') :
    (Present (s.pde (dirIndex va)) ∧
        s' = s.putEntry (dirIndex va) (tabIndex va) (physAddr ||| flags)) ∨
      ∃ b pmm, ¬ Present (s.pde (dirIndex va)) ∧
        Pmm.pmmAllocFrame s.pmm = .ok (b * 4096, pmm) ∧ b < 2 ^ 20 ∧ b ≠ s.cr3 ∧
        Wired (s.withPmm pmm) ∧
        s' = ((s.withPmm pmm).addTable (dirIndex va) (b * 4096 ||| dirFlags flags)).putEntry
          (dirIndex va) (tabIndex va) (physAddr ||| flags) := by
  by_cases hp : Present (s.pde (dirIndex va))
  · rw [h.mapPage_present hva hp] at he
    cases he
    exact .inl ⟨hp, rfl⟩
  · obtain ⟨b, pmm, ha, hb, hw⟩ := h.pmmAllocFrame
    -- `free_page` may have given the directory's own frame back to the allocator
    by_cases hroot : b = s.cr3
    · subst hroot
      obtain ⟨a, hf⟩ := h.mapPage_fault hva hp ha hb physAddr flags
      rw [hf] at he
      cases he
    · rw [h.mapPage_absent hva hp ha hb hroot] at he
      cases he
      exact .inr ⟨b, pmm, hp, ha, hb, hroot, hw, rfl⟩

theorem mapPage (h : Wired s) (hva : va < 0xFFC00000)
    (he : Paging.mapPage s va physAddr flags = .ok s') : Wired s' := by
  have hd := dirIndex_lt hva
  rcases h.mapPage_returned hva he with ⟨hp, rfl⟩ | ⟨b, pmm, -, -, hb, hroot, hw, rfl⟩
  · exact h.putEntry hd hp
  · obtain ⟨hpe, hfr⟩ := newEntry hb flags
    have hne : frameOf (b * 4096 ||| dirFlags flags) ≠ (s.withPmm pmm).cr3 := by
      rw [hfr]
      exact hroot
    refine (hw.addTable hd hne).putEntry hd ?_
    rwa [pde_addTable hne, if_pos rfl]

/-- What an `alloc_page` that returns has done: it took a frame and mapped it. -/
theorem allocPage_returned (h : Wired s) (hva : va < 0xFFC00000)
    (he : allocPage s va flags = .ok s') :
    ∃ b pmm, Pmm.pmmAllocFrame s.pmm = .ok (b * 4096, pmm) ∧ b ≠ 0 ∧ Wired (s.withPmm pmm) ∧
      Paging.mapPage (s.withPmm pmm) va (b * 4096) flags = .ok s' := by
  obtain ⟨b, pmm, ha, -, hw⟩ := h.pmmAllocFrame
  rw [allocPage_eq h.rooted h.enabled hva ha] at he
  split_ifs at he with hmapped hzero
  exact ⟨b, pmm, ha, by omega, hw, he⟩

/-- What `unmap_page` leaves of the directory: the other entries, and its own or 0. -/
theorem dropTable (h : Wired s) (hd : d < 1023) (he : Paging.dropTable s d = .ok s') :
    Wired s' ∧ (s' = s ∨ ∃ a pmm, Pmm.pmmFreeFrame s.pmm a = .ok pmm ∧
      s' = (s.withPmm pmm).setWord s.cr3 d 0) := by
  rw [dropTable_eq h.rooted (by omega)] at he
  split_ifs at he with hc
  · obtain ⟨pmm, hfree, he⟩ := Outcome.bind_eq_ok.mp he
    cases he
    have hw := h.pmmFreeFrame hfree
    have habs : ¬ Present 0 := by decide
    refine ⟨⟨hw.enabled, ?_, hw.padded, hw.maxBlocks_le⟩, .inr ⟨_, pmm, hfree, rfl⟩⟩
    exact hw.rooted.setDir hd fun hc => absurd hc habs
  · cases he
    exact ⟨h, .inl rfl⟩

theorem unmapPage_returned (h : Wired s) (hva : va < 0xFFC00000) (he : unmapPage s va = .ok s') :
    Present (s.pde (dirIndex va)) ∧ ∃ r, (r = s ∨ r = s.removeEntry (dirIndex va) (tabIndex va)) ∧
      Wired r ∧ Paging.dropTable r (dirIndex va) = .ok s' := by
  have hd := dirIndex_lt hva
  rw [unmapPage_eq h.rooted h.enabled hva] at he
  split_ifs at he with hp hpt
  · exact ⟨hp, _, .inr rfl, h.removeEntry hd hp, he⟩
  · exact ⟨hp, s, .inl rfl, h, he⟩

theorem freePage_returned (h : Wired s) (hva : va < 0xFFC00000) (he : freePage s va = .ok s') :
    ∃ a pmm, Pmm.pmmFreeFrame s.pmm a = .ok pmm ∧ Wired (s.withPmm pmm) ∧
      unmapPage (s.withPmm pmm) va = .ok s' := by
  rw [freePage_eq h.rooted h.enabled hva] at he
  split_ifs at he
  obtain ⟨pmm, hfree, he⟩ := Outcome.bind_eq_ok.mp he
  exact ⟨_, pmm, hfree, h.pmmFreeFrame hfree, he⟩

theorem unmapPage (h : Wired s) (hva : va < 0xFFC00000) (he : Paging.unmapPage s va = .ok s') :
    Wired s' := by
  obtain ⟨-, r, -, hr, hdrop⟩ := h.unmapPage_returned hva he
  exact (hr.dropTable (dirIndex_lt hva) hdrop).1

end Wired

section Runs

variable {s s' : PagingState}

/-- The address a call is about. -/
def Call.address : Call → ℕ
  | map va _ _ => va
  | alloc va _ => va
  | unmap va => va
  | free va => va

/-- One call below the recursive window that returns, with any frame and any flags. -/
def AnyStep (s s' : PagingState) : Prop :=
  ∃ c : Call, c.address < 0xFFC00000 ∧ c.exec s = .ok s'

theorem Wired.exec {c : Call} (h : Wired s) (hva : c.address < 0xFFC00000)
    (he : c.exec s = .ok s') : Wired s' := by
  cases c with
  | map va physAddr flags => exact h.mapPage hva he
  | alloc va flags =>
    obtain ⟨b, pmm, -, -, hw, hmap⟩ := h.allocPage_returned hva he
    exact hw.mapPage hva hmap
  | unmap va => exact h.unmapPage hva he
  | free va =>
    obtain ⟨a, pmm, -, hw, hun⟩ := h.freePage_returned hva he
    exact hw.unmapPage hva hun

theorem Wired.run (h : Wired s) (hr : Relation.ReflTransGen AnyStep s s') : Wired s' := by
  induction hr with
  | refl => exact h
  | tail _ hs ih =>
    obtain ⟨c, hva, he⟩ := hs
    exact ih.exec hva he

end Runs

section Proper

variable {k k' : Tracked}

/-- `Allowed`, where `map_page` takes any physical address and any flags with the
present bit. -/
def Call.Proper : Call → Tracked → Prop
  | map va _ flags, k => va < 0xFFC00000 ∧ Present flags ∧
      (Present (k.state.pde (dirIndex va)) ∨ CanAlloc k.state.pmm)
  | alloc va flags, k => Call.Allowed (alloc va flags) k
  | unmap va, k => Call.Allowed (unmap va) k
  | free va, k => Call.Allowed (free va) k

inductive Tracked.ProperStep : Tracked → Tracked → Prop where
  | call {k : Tracked} {s' : PagingState} (c : Call) :
      c.Proper k → c.exec k.state = .ok s' → ProperStep k ⟨s', c.owned k.owned⟩

theorem Call.Proper.below {c : Call} (h : c.Proper k) : c.address < 0xFFC00000 := by
  cases c with
  | map va physAddr flags => exact h.1
  | alloc va flags => exact h.1
  | unmap va => exact h
  | free va => exact h.1

theorem Tracked.Good.properStep (h : k.Good) (hs : k.ProperStep k') : k'.Good := by
  obtain ⟨c, ha, he⟩ := hs
  cases c with
  | map va physAddr flags =>
    obtain ⟨hva, hpr, hal⟩ := ha
    -- bits of the address that fall on flags change nothing about the present bit
    have hentry : Present (physAddr ||| flags) := Nat.or_mod_two_eq_one.mpr (.inr hpr)
    obtain ⟨s', hok, hm⟩ := h.sound.mapPage_entry hva hentry hal
    obtain rfl : s' = _ := Except.ok.inj (hok.symm.trans he)
    exact ⟨hm.sound, hm.filled h.filled⟩
  | alloc va flags => exact h.step ⟨_, ha, he⟩
  | unmap va => exact h.step ⟨_, ha, he⟩
  | free va => exact h.step ⟨_, ha, he⟩

theorem Tracked.Good.properRun (h : k.Good) (hr : Relation.ReflTransGen Tracked.ProperStep k k') :
    k'.Good ∧ k'.state.cr3 = k.state.cr3 := by
  induction hr with
  | refl => exact ⟨h, rfl⟩
  | tail _ hs ih =>
    refine ⟨ih.1.properStep hs, ?_⟩
    cases hs with
    | call c ha he => exact (Call.exec_cr3 he).trans ih.2

end Proper

section Access

variable {s s' : PagingState} {owned : Finset ℕ} {d t e va physAddr flags : ℕ}

/-- The USER bit, the same in both kinds of entries. -/
def User (entry : ℕ) : Prop := entry &&& pteUser ≠ 0

instance (entry : ℕ) : Decidable (User entry) := inferInstanceAs (Decidable (_ ≠ _))

/-- The walk lets user code through: both entries carry the USER bit. -/
def UserAccess (s : PagingState) (va : ℕ) : Prop :=
  ∃ pde pte, walk s va = some (pde, pte) ∧ User pde ∧ User pte

theorem user_iff {x : ℕ} : User x ↔ x.testBit 2 = true := by
  have h4 : pteUser = 2 ^ 2 := rfl
  rw [User, h4, Nat.and_two_pow]
  cases x.testBit 2 <;> decide

theorem user_or {a f : ℕ} : User (a ||| f) ↔ User a ∨ User f := by
  rw [user_iff, user_iff, user_iff, Nat.testBit_or, Bool.or_eq_true]

/-- An address of a frame has no flag bits. -/
theorem not_user_frame (b : ℕ) : ¬ User (b * 4096) := by
  have h : b * 4096 = b <<< 12 := by rw [Nat.shiftLeft_eq]
  rw [user_iff, h, Nat.testBit_shiftLeft]
  simp

theorem user_dirFlags : User (dirFlags flags) ↔ User flags := by
  unfold dirFlags
  by_cases hu : flags &&& pteUser ≠ 0
  · rw [if_pos hu]
    exact ⟨fun _ => hu, fun _ => by decide⟩
  · rw [if_neg hu]
    exact ⟨fun h => absurd h (by decide), fun h => absurd h hu⟩

theorem user_newEntry (b flags : ℕ) : User (b * 4096 ||| dirFlags flags) ↔ User flags := by
  rw [user_or, user_dirFlags]
  exact or_iff_right (not_user_frame b)

theorem walk_putEntry_self (hp : Present (s.pde (dirIndex va)))
    (hap : s.table (dirIndex va) ≠ s.cr3) (he : Present e) :
    walk (s.putEntry (dirIndex va) (tabIndex va) e) va = some (s.pde (dirIndex va), e) := by
  have hpte : (s.putEntry (dirIndex va) (tabIndex va) e).pte (dirIndex va) (tabIndex va) = e := by
    rw [pte_putEntry hap, if_pos ⟨rfl, rfl⟩]
  rw [walk, walkAt, pde_putEntry hap, hpte, if_pos ⟨hp, he⟩]

/-- After `map_page` the walk meets the directory entry and the entry asked for. -/
theorem Wired.walk_mapPage (h : Wired s) (hva : va < 0xFFC00000) (hpr : Present flags)
    (he : Paging.mapPage s va physAddr flags = .ok s') :
    walk s' va = some (s'.pde (dirIndex va), physAddr ||| flags) := by
  have hd := dirIndex_lt hva
  have hpte : Present (physAddr ||| flags) := Nat.or_mod_two_eq_one.mpr (.inr hpr)
  rcases h.mapPage_returned hva he with ⟨hp, rfl⟩ | ⟨b, pmm, -, -, hb, hroot, hw, rfl⟩
  · have hap := h.rooted.apart _ hd hp
    rw [walk_putEntry_self hp hap hpte, pde_putEntry hap]
  · obtain ⟨hpe, hfr⟩ := newEntry hb flags
    have hne : frameOf (b * 4096 ||| dirFlags flags) ≠ (s.withPmm pmm).cr3 := by
      rw [hfr]
      exact hroot
    have hnew : ((s.withPmm pmm).addTable (dirIndex va) (b * 4096 ||| dirFlags flags)).pde
        (dirIndex va) = b * 4096 ||| dirFlags flags := by rw [pde_addTable hne, if_pos rfl]
    rw [pde_newTable hb hroot, if_pos rfl, walk_putEntry_self (by rwa [hnew]) _ hpte, hnew]
    rw [PagingState.table, hnew]
    exact hne

/-- The directory entry keeps the flags it was created with. -/
theorem Wired.pde_mapPage (h : Wired s) (hva : va < 0xFFC00000)
    (he : Paging.mapPage s va physAddr flags = .ok s') :
    (Present (s.pde (dirIndex va)) → s'.pde (dirIndex va) = s.pde (dirIndex va)) ∧
      (¬ Present (s.pde (dirIndex va)) →
        ∃ b < 2 ^ 20, s'.pde (dirIndex va) = b * 4096 ||| dirFlags flags) := by
  rcases h.mapPage_returned hva he with ⟨hp, rfl⟩ | ⟨b, pmm, hp, -, hb, hroot, -, rfl⟩
  · refine ⟨fun _ => pde_putEntry (h.rooted.apart _ (dirIndex_lt hva) hp) _, fun hn => absurd hp hn⟩
  · refine ⟨fun hc => absurd hc hp, fun _ => ⟨b, hb, ?_⟩⟩
    rw [pde_newTable hb hroot, if_pos rfl]

theorem Wired.userAccess_iff (h : Wired s) (hva : va < 0xFFC00000) (hpr : Present flags)
    (hus : User flags) (he : Paging.mapPage s va physAddr flags = .ok s') :
    UserAccess s' va ↔ (Present (s.pde (dirIndex va)) → User (s.pde (dirIndex va))) := by
  have hwalk := h.walk_mapPage hva hpr he
  obtain ⟨hold, hnew⟩ := h.pde_mapPage hva he
  -- the page's own entry has the USER bit of `flags`; the directory entry decides
  have hpde : UserAccess s' va ↔ User (s'.pde (dirIndex va)) := by
    constructor
    · rintro ⟨pde, pte, hw, hu, -⟩
      rw [hwalk] at hw
      cases hw
      exact hu
    · intro hu
      exact ⟨_, _, hwalk, hu, user_or.mpr (.inr hus)⟩
  rw [hpde]
  by_cases hp : Present (s.pde (dirIndex va))
  · rw [hold hp]
    exact ⟨fun hu _ => hu, fun hu => hu hp⟩
  · obtain ⟨b, -, hb⟩ := hnew hp
    rw [hb, user_newEntry]
    exact ⟨fun _ hc => absurd hc hp, fun _ => hus⟩

/-- Without a failed allocation `map_page` returns, also for frames and flags of no use. -/
theorem Sound.mapPage_returns (h : Sound s owned) (hva : va < 0xFFC00000)
    (ha : Present (s.pde (dirIndex va)) ∨ CanAlloc s.pmm) (physAddr flags : ℕ) :
    ∃ s', Paging.mapPage s va physAddr flags = .ok s' := by
  by_cases hp : Present (s.pde (dirIndex va))
  · exact ⟨_, h.wired.mapPage_present hva hp physAddr flags⟩
  · obtain ⟨b, hb, hok⟩ := h.tables.canAlloc (ha.resolve_left hp)
    have hmax := h.tables.maxBlocks_le
    have hlt := hb.1
    exact ⟨_, h.wired.mapPage_absent hva hp hok (by omega) (h.tables.free_apart hb).2.1 physAddr
      flags⟩

end Access

section Results

/-- In every state the calls can reach, a mapping asked for user code is open to user
code exactly when the call creates the page table itself or finds it open already:
`map_page` never adds the USER bit to a directory entry. Without a failed allocation
the call returns. -/
theorem user_access_iff_table_open (l : Layout) (mem : Mem) (mbd : MultibootInfo)
    (es : List MmapEntry) (hm : MemoryMap mem mbd es) (ho : ∀ e ∈ es, e.Ordinary)
    (f : BootFrames l) (ram : ℕ → ℕ → ℕ) :
    ∃ p, pmmInit l mem mbd = .ok p ∧
      (∀ s, Relation.ReflTransGen AnyStep (f.start ram p).state s →
        ∀ va physAddr flags s', va < 0xFFC00000 → Present flags → User flags →
          mapPage s va physAddr flags = .ok s' →
          (UserAccess s' va ↔ (Present (s.pde (dirIndex va)) → User (s.pde (dirIndex va))))) ∧
      ∀ k, Relation.ReflTransGen Tracked.ProperStep (f.start ram p) k →
        ∀ va physAddr flags, va < 0xFFC00000 →
          Present (k.state.pde (dirIndex va)) ∨ CanAlloc k.state.pmm →
          ∃ s', mapPage k.state va physAddr flags = .ok s' := by
  obtain ⟨p, hp, hgood⟩ := f.start_good hm ho ram
  refine ⟨p, hp, ?_, ?_⟩
  · intro s hr va physAddr flags s' hva hpr hus he
    exact (hgood.sound.wired.run hr).userAccess_iff hva hpr hus he
  · intro k hr va physAddr flags hva ha
    exact (hgood.properRun hr).1.sound.mapPage_returns hva ha physAddr flags

theorem user_access_iff_table_open_sample :
    ∃ p s', pmmInit sampleLayout sampleMap ⟨0x1000, 24⟩ = .ok p ∧
      mapPage (sampleFrames.start (fun _ _ => 0) p).state 0xC03FF000 0x5000 7 = .ok s' ∧
      ¬ UserAccess s' 0xC03FF000 := by
  obtain ⟨p, hp, h, hret⟩ := user_access_iff_table_open sampleLayout sampleMap ⟨0x1000, 24⟩
    [sampleEntry] sampleMap_wellFormed sampleEntry_ordinary sampleFrames fun _ _ => 0
  have hpde : (sampleFrames.start (fun _ _ => 0) p).state.pde (dirIndex 0xC03FF000) =
      0x111 * 4096 ||| 3 := sampleFrames.pde_start _ _
  have hpr : Present ((sampleFrames.start (fun _ _ => 0) p).state.pde (dirIndex 0xC03FF000)) := by
    rw [hpde]
    decide
  obtain ⟨s', hs'⟩ := hret _ .refl 0xC03FF000 0x5000 7 (by decide) (.inl hpr)
  refine ⟨p, s', hp, hs', ?_⟩
  rw [h _ .refl 0xC03FF000 0x5000 7 s' (by decide) (by decide) (by decide) hs', hpde]
  decide

/-- A kernel page makes the table, a user page follows in it, and user code cannot
reach it. -/
theorem user_page_in_kernel_table :
    ∃ p k s', pmmInit sampleLayout sampleMap ⟨0x1000, 24⟩ = .ok p ∧
      Tracked.Step (sampleFrames.start (fun _ _ => 0) p) k ∧
      Call.Allowed (.map 0x401000 0x6000 (ptePresent ||| pteRw ||| pteUser)) k ∧
      mapPage k.state 0x401000 0x6000 (ptePresent ||| pteRw ||| pteUser) = .ok s' ∧
      ¬ UserAccess s' 0x401000 := by
  obtain ⟨p, hp, hi⟩ := pmmInit_ok sampleLayout sampleMap_wellFormed sampleEntry_ordinary
  have hsound := sampleFrames.start_sound (fun _ _ => 0) sampleEntry_ordinary hi
  have hcan := hsound.tables.canAlloc_of_free (sample_free hi).1
  have ha : Call.Allowed (.map 0x400000 0x5000 (ptePresent ||| pteRw))
      (sampleFrames.start (fun _ _ => 0) p) :=
    ⟨by decide, by decide, by decide, by decide, .inr hcan⟩
  have habs : ¬ Present ((sampleFrames.start (fun _ _ => 0) p).state.pde (dirIndex 0x400000)) := by
    rw [sampleFrames.pde_start]
    decide
  obtain ⟨s, hs⟩ := hsound.mapPage_returns (by decide : 0x400000 < 0xFFC00000) (.inr hcan) 0x5000
    (ptePresent ||| pteRw)
  obtain ⟨b, hb, hpde⟩ := (hsound.wired.pde_mapPage (by decide) hs).2 habs
  have hw := hsound.wired.mapPage (by decide) hs
  have hpr : Present (s.pde (dirIndex 0x401000)) := by
    have hsame : dirIndex 0x401000 = dirIndex 0x400000 := by decide
    rw [hsame, hpde]
    exact (Wired.newEntry hb _).1
  have hs' := hw.mapPage_present (by decide : 0x401000 < 0xFFC00000) hpr 0x6000
    (ptePresent ||| pteRw ||| pteUser)
  refine ⟨p, ⟨s, _⟩, _, hp, ⟨_, ha, hs⟩, ?_, hs', ?_⟩
  · exact ⟨by decide, by decide, by decide, by decide, .inl hpr⟩
  · rw [hw.userAccess_iff (by decide) (by decide) (by decide) hs']
    intro hu
    have hopen := hu hpr
    have hsame : dirIndex 0x401000 = dirIndex 0x400000 := by decide
    rw [hsame, hpde, user_newEntry] at hopen
    exact absurd hopen (by decide)

end Results
end KallarOS.Paging
