import KallarOS.PagingModel

namespace KallarOS.Paging
open Pmm

section Entries

theorem and_present_eq_zero {x : ℕ} : x &&& pdePresent = 0 ↔ ¬ Present x := by
  rw [pdePresent, Nat.and_one_is_mod, Present]
  omega

theorem and_ptePresent_eq_zero {x : ℕ} : x &&& ptePresent = 0 ↔ ¬ Present x := and_present_eq_zero

/-- `entry & 0xFFFFF000` is the address of the entry's frame. -/
theorem and_frameMask (x : ℕ) : x &&& pteFrameMask = frameOf x * 4096 := by
  have hmask : pteFrameMask = (2 ^ 20 - 1) <<< 12 := by decide
  have hx : x = (x >>> 12) <<< 12 ||| x % 2 ^ 12 := by
    rw [Nat.shiftRight_eq_div_pow, Nat.shiftLeft_eq, Nat.mul_comm,
      ← Nat.two_pow_add_eq_or_of_lt (Nat.mod_lt _ (by decide))]
    omega
  have hlow : x % 2 ^ 12 &&& (2 ^ 20 - 1) <<< 12 = 0 := by
    apply Nat.eq_of_testBit_eq
    intro i
    rw [Nat.testBit_and, Nat.testBit_mod_two_pow, Nat.testBit_shiftLeft, Nat.zero_testBit]
    by_cases hi : i < 12
    · have : ¬ 12 ≤ i := by omega
      simp [this]
    · simp [hi]
  rw [hmask]
  conv_lhs => rw [hx]
  rw [Nat.and_or_distrib_right, hlow, Nat.or_zero, ← Nat.shiftLeft_and_distrib,
    Nat.and_two_pow_sub_one_eq_mod, Nat.shiftLeft_eq, Nat.shiftRight_eq_div_pow]
  rfl

theorem or_flags {a f : ℕ} (ha : a % 4096 = 0) (hf : f < 4096) : a ||| f = a + f := by
  have h := Nat.two_pow_add_eq_or_of_lt (i := 12) hf (a / 4096)
  have ha' : 2 ^ 12 * (a / 4096) = a := by omega
  rw [ha'] at h
  exact h.symm

theorem frameOf_or {a f : ℕ} (ha : a % 4096 = 0) (hf : f < 4096) :
    frameOf (a ||| f) = a / 4096 % 2 ^ 20 := by
  rw [or_flags ha hf, frameOf]
  omega

theorem present_or {a f : ℕ} (ha : a % 4096 = 0) (hf : f < 4096) :
    Present (a ||| f) ↔ f % 2 = 1 := by
  rw [or_flags ha hf, Present]
  omega

theorem dirFlags_lt (f : ℕ) : dirFlags f < 4096 := by
  unfold dirFlags
  split_ifs <;> decide

theorem dirFlags_present (f : ℕ) : dirFlags f % 2 = 1 := by
  unfold dirFlags
  split_ifs <;> decide

end Entries

namespace PagingState

variable (s : PagingState)

def pde (d : ℕ) : ℕ := s.phys s.cr3 d

/-- The frame of page table `d`. -/
def table (d : ℕ) : ℕ := frameOf (s.pde d)

def pte (d t : ℕ) : ℕ := s.phys (s.table d) t

def withPmm (pmm : PmmState) : PagingState := { s with pmm := pmm }

/-- The first `n` words of `frame` cleared. -/
def zeroed (frame n : ℕ) : PagingState :=
  { s with phys := fun f i => if f = frame ∧ i < n then 0 else s.phys f i }

/-- A new, empty table for index `d`, entered in the directory as `entry`. -/
def addTable (d entry : ℕ) : PagingState := (s.setWord s.cr3 d entry).zeroed (frameOf entry) 1024

def putEntry (d t entry : ℕ) : PagingState :=
  (countEntry s d (s.pte d t)).setWord (s.table d) t entry

/-- Table entry `t` cleared and taken out of the count. -/
def removeEntry (d t : ℕ) : PagingState :=
  { s.setWord (s.table d) t 0 with
    refCounter := Function.update s.refCounter d ((s.refCounter d + 0xFFFF) % 2 ^ 16) }

@[simp] theorem phys_setWord (f i x f' i' : ℕ) :
    (s.setWord f i x).phys f' i' = if f' = f ∧ i' = i then x else s.phys f' i' := by
  simp only [setWord, Function.update_apply]
  by_cases hf : f' = f
  · subst hf
    simp [Function.update_apply]
  · simp [hf]

@[simp] theorem cr3_setWord (f i x : ℕ) : (s.setWord f i x).cr3 = s.cr3 := rfl
@[simp] theorem pmm_setWord (f i x : ℕ) : (s.setWord f i x).pmm = s.pmm := rfl
@[simp] theorem refCounter_setWord (f i x : ℕ) : (s.setWord f i x).refCounter = s.refCounter := rfl
@[simp] theorem pagingEnabled_setWord (f i x : ℕ) :
    (s.setWord f i x).pagingEnabled = s.pagingEnabled := rfl

@[simp] theorem phys_withPmm (pmm : PmmState) : (s.withPmm pmm).phys = s.phys := rfl
@[simp] theorem cr3_withPmm (pmm : PmmState) : (s.withPmm pmm).cr3 = s.cr3 := rfl
@[simp] theorem pmm_withPmm (pmm : PmmState) : (s.withPmm pmm).pmm = pmm := rfl
@[simp] theorem refCounter_withPmm (pmm : PmmState) :
    (s.withPmm pmm).refCounter = s.refCounter := rfl
@[simp] theorem pagingEnabled_withPmm (pmm : PmmState) :
    (s.withPmm pmm).pagingEnabled = s.pagingEnabled := rfl

theorem zeroed_zero (frame : ℕ) : s.zeroed frame 0 = s := by simp [zeroed]

/-- One more turn of `memset`. -/
theorem setWord_zeroed (frame n : ℕ) :
    (s.zeroed frame n).setWord frame n 0 = s.zeroed frame (n + 1) := by
  simp only [zeroed, setWord]
  congr 1
  funext f i
  simp only [Function.update_apply]
  by_cases hf : f = frame
  · subst hf
    by_cases hi : i = n
    · simp [hi]
    · have : (i < n + 1) ↔ i < n := by omega
      simp [hi, this]
  · simp [hf]

theorem pde_setDir (d e i : ℕ) : (s.setWord s.cr3 d e).pde i = if i = d then e else s.pde i := by
  simp [pde]

/-- The directory after the entry of a table that was given back is cleared. -/
theorem pde_clearDir (pmm : PmmState) (d i : ℕ) :
    ((s.withPmm pmm).setWord s.cr3 d 0).pde i = if i = d then 0 else s.pde i :=
  (s.withPmm pmm).pde_setDir d 0 i

@[simp] theorem phys_countEntry (d e : ℕ) : (countEntry s d e).phys = s.phys := by
  unfold countEntry
  split_ifs <;> rfl

@[simp] theorem cr3_countEntry (d e : ℕ) : (countEntry s d e).cr3 = s.cr3 := by
  unfold countEntry
  split_ifs <;> rfl

@[simp] theorem pmm_countEntry (d e : ℕ) : (countEntry s d e).pmm = s.pmm := by
  unfold countEntry
  split_ifs <;> rfl

@[simp] theorem pagingEnabled_countEntry (d e : ℕ) :
    (countEntry s d e).pagingEnabled = s.pagingEnabled := by
  unfold countEntry
  split_ifs <;> rfl

end PagingState

/-- The directory maps itself at index 1023 and no page table lies on top of it. -/
structure Rooted (s : PagingState) : Prop where
  slot : Present (s.pde 1023)
  root : s.table 1023 = s.cr3
  apart : ∀ d < 1023, Present (s.pde d) → s.table d ≠ s.cr3

section Windows

variable {s : PagingState} {d t : ℕ}

theorem translate_dir (h : Rooted s) (hd : d < 1024) :
    translate s (recursiveDirPtr d) = .ok s.cr3 := by
  have h1 : recursiveDirPtr d / 2 ^ 22 = 1023 := by unfold recursiveDirPtr; omega
  have h2 : recursiveDirPtr d / 2 ^ 12 % 1024 = 1023 := by unfold recursiveDirPtr; omega
  have hs := h.slot
  have hr := h.root
  simp only [PagingState.pde, PagingState.table] at hs hr
  simp only [translate, h1, h2, if_pos hs, hr]

/-- The window at 0xFFC00000 needs the recursive slot only. -/
theorem translate_window (hs : Present (s.pde 1023)) (hr : s.table 1023 = s.cr3) (hd : d < 1024)
    (ht : t < 1024) :
    translate s (recursiveTablePtr d + 4 * t) =
      if Present (s.pde d) then .ok (s.table d)
      else .error (.fault (recursiveTablePtr d + 4 * t)) := by
  have h1 : (recursiveTablePtr d + 4 * t) / 2 ^ 22 = 1023 := by unfold recursiveTablePtr; omega
  have h2 : (recursiveTablePtr d + 4 * t) / 2 ^ 12 % 1024 = d := by unfold recursiveTablePtr; omega
  simp only [PagingState.pde, PagingState.table] at hs hr ⊢
  simp only [translate, h1, h2, if_pos hs, hr]
  rfl

theorem translate_table (h : Rooted s) (hd : d < 1024) (ht : t < 1024) (hp : Present (s.pde d)) :
    translate s (recursiveTablePtr d + 4 * t) = .ok (s.table d) := by
  rw [translate_window h.slot h.root hd ht, if_pos hp]

/-- The recursive window at 0xFFFFF000 is the directory. -/
theorem vread_dir (h : Rooted s) (hd : d < 1024) : vread s (recursiveDirPtr d) = .ok (s.pde d) := by
  have hi : recursiveDirPtr d % 4096 / 4 = d := by unfold recursiveDirPtr; omega
  simp only [vread, translate_dir h hd, Outcome.ok_bind, hi, Outcome.pure_eq_ok]
  rfl

theorem vwrite_dir (h : Rooted s) (hd : d < 1024) (x : ℕ) :
    vwrite s (recursiveDirPtr d) x = .ok (s.setWord s.cr3 d x) := by
  have hi : recursiveDirPtr d % 4096 / 4 = d := by unfold recursiveDirPtr; omega
  simp only [vwrite, translate_dir h hd, Outcome.ok_bind, hi, Outcome.pure_eq_ok]

/-- The recursive window at 0xFFC00000 shows the page tables one after the other. -/
theorem vread_table (h : Rooted s) (hd : d < 1024) (ht : t < 1024) (hp : Present (s.pde d)) :
    vread s (recursiveTablePtr d + 4 * t) = .ok (s.pte d t) := by
  have hi : (recursiveTablePtr d + 4 * t) % 4096 / 4 = t := by unfold recursiveTablePtr; omega
  simp only [vread, translate_table h hd ht hp, Outcome.ok_bind, hi, Outcome.pure_eq_ok]
  rfl

theorem vwrite_table (h : Rooted s) (hd : d < 1024) (ht : t < 1024) (hp : Present (s.pde d))
    (x : ℕ) : vwrite s (recursiveTablePtr d + 4 * t) x = .ok (s.setWord (s.table d) t x) := by
  have hi : (recursiveTablePtr d + 4 * t) % 4096 / 4 = t := by unfold recursiveTablePtr; omega
  simp only [vwrite, translate_table h hd ht hp, Outcome.ok_bind, hi, Outcome.pure_eq_ok]

/-- `Rooted` reads the directory frame only. -/
theorem Rooted.congr {s' : PagingState} (h : Rooted s) (hc : s'.cr3 = s.cr3)
    (hp : ∀ i, s'.phys s.cr3 i = s.phys s.cr3 i) : Rooted s' := by
  have hpde : ∀ i, s'.pde i = s.pde i := fun i => by rw [PagingState.pde, hc, hp]; rfl
  have htab : ∀ i, s'.table i = s.table i := fun i => by rw [PagingState.table, hpde]; rfl
  exact ⟨(hpde 1023).symm ▸ h.slot, by rw [htab, hc, h.root], fun d hd hpr => by
    rw [htab, hc]
    exact h.apart d hd (hpde d ▸ hpr)⟩

/-- Clearing a fresh table through its window clears exactly its frame. -/
theorem memsetZero_table (h : Rooted s) (hd : d < 1023) (hp : Present (s.pde d)) {n : ℕ}
    (hn : n ≤ 1024) :
    memsetZero s (recursiveTablePtr d) n = .ok (s.zeroed (s.table d) n) := by
  have hap := h.apart d hd hp
  induction n with
  | zero => rw [memsetZero, PagingState.zeroed_zero]
  | succ n ih =>
    let z := s.zeroed (s.table d) n
    have hdir : ∀ i, z.phys s.cr3 i = s.phys s.cr3 i := fun i => if_neg fun hc => hap hc.1.symm
    have hz : Rooted z := h.congr rfl hdir
    have hpde : z.pde d = s.pde d := hdir d
    have htab : z.table d = s.table d := by rw [PagingState.table, hpde]; rfl
    have hw := vwrite_table hz (by omega) (by omega : n < 1024) (hpde.symm ▸ hp) 0
    simp only [memsetZero, ih (by omega), Outcome.ok_bind]
    rw [hw, htab, PagingState.setWord_zeroed]

end Windows

section Routines

variable {s : PagingState} {d t : ℕ}

/-- A directory entry for a frame other than the directory keeps the recursive slot. -/
theorem Rooted.setDir (h : Rooted s) (hd : d < 1023) {e : ℕ} (he : Present e → frameOf e ≠ s.cr3) :
    Rooted (s.setWord s.cr3 d e) := by
  have hne : (1023 : ℕ) ≠ d := by omega
  refine ⟨?_, ?_, fun i hi hp => ?_⟩
  · rw [PagingState.pde_setDir, if_neg hne]
    exact h.slot
  · rw [PagingState.table, PagingState.pde_setDir, if_neg hne]
    exact h.root
  · rw [PagingState.pde_setDir] at hp
    rw [PagingState.table, PagingState.pde_setDir]
    split_ifs at hp ⊢ with hid
    · exact he hp
    · exact h.apart i hi hp

theorem Rooted.withPmm (h : Rooted s) (pmm : PmmState) : Rooted (s.withPmm pmm) := h.congr rfl fun _ => rfl

theorem installTable_eq (h : Rooted s) (hd : d < 1023) {flags newFrame : ℕ} {pmm : PmmState}
    (ha : pmmAllocFrame s.pmm = .ok (newFrame, pmm))
    (hp : Present (newFrame ||| dirFlags flags))
    (hf : frameOf (newFrame ||| dirFlags flags) ≠ s.cr3) :
    installTable s d flags = .ok ((s.withPmm pmm).addTable d (newFrame ||| dirFlags flags)) := by
  have hr : Rooted (s.withPmm pmm) := h.withPmm pmm
  have hr' := hr.setDir hd (e := newFrame ||| dirFlags flags) fun _ => hf
  have hpde := (s.withPmm pmm).pde_setDir d (newFrame ||| dirFlags flags) d
  rw [if_pos rfl] at hpde
  have hw := vwrite_dir hr (by omega : d < 1024) (newFrame ||| dirFlags flags)
  have hm := memsetZero_table hr' hd (hpde.symm ▸ hp) (le_refl 1024)
  rw [PagingState.table, hpde] at hm
  simp only [installTable, ha, Outcome.ok_bind]
  change (vwrite (s.withPmm pmm) _ _ >>= _) = _
  rw [hw, Outcome.ok_bind, hm]
  rfl

theorem enterPage_eq (h : Rooted s) (hd : d < 1024) (ht : t < 1024) (hp : Present (s.pde d))
    (e : ℕ) : enterPage s d t e = .ok (s.putEntry d t e) := by
  have hc : Rooted (countEntry s d (s.pte d t)) := h.congr (by simp) fun _ => by simp
  have hpde : (countEntry s d (s.pte d t)).pde d = s.pde d := by simp [PagingState.pde]
  have hw := vwrite_table hc hd ht (hpde.symm ▸ hp) e
  simp only [enterPage, vread_table h hd ht hp, Outcome.ok_bind]
  rw [hw, PagingState.table, hpde]
  rfl

theorem mapPageEnabled_present (h : Rooted s) (hd : d < 1024) (ht : t < 1024)
    (hp : Present (s.pde d)) (physAddr flags : ℕ) :
    mapPageEnabled s d t physAddr flags = .ok (s.putEntry d t (physAddr ||| flags)) := by
  have hn : ¬ s.pde d &&& pdePresent = 0 := fun h0 => and_present_eq_zero.mp h0 hp
  simp only [mapPageEnabled, ensureTable, vread_dir h hd, Outcome.ok_bind, if_neg hn,
    Outcome.pure_eq_ok, enterPage_eq h hd ht hp]

theorem pde_addTable {e : ℕ} (he : frameOf e ≠ s.cr3) (i : ℕ) :
    (s.addTable d e).pde i = if i = d then e else s.pde i := by
  rw [← PagingState.pde_setDir]
  exact if_neg fun hc => he hc.1.symm

theorem Rooted.addTable (h : Rooted s) (hd : d < 1023) {e : ℕ} (he : frameOf e ≠ s.cr3) :
    Rooted (s.addTable d e) :=
  (h.setDir hd fun _ => he).congr rfl fun _ => if_neg fun hc => he hc.1.symm

theorem mapPageEnabled_absent (h : Rooted s) (hd : d < 1023) (ht : t < 1024)
    (hn : ¬ Present (s.pde d)) {physAddr flags newFrame : ℕ} {pmm : PmmState}
    (ha : pmmAllocFrame s.pmm = .ok (newFrame, pmm))
    (hp : Present (newFrame ||| dirFlags flags))
    (hf : frameOf (newFrame ||| dirFlags flags) ≠ s.cr3) :
    mapPageEnabled s d t physAddr flags =
      .ok (((s.withPmm pmm).addTable d (newFrame ||| dirFlags flags)).putEntry d t
        (physAddr ||| flags)) := by
  have hr := (h.withPmm pmm).addTable hd hf
  have hpde := pde_addTable (s := s.withPmm pmm) (d := d) hf d
  rw [if_pos rfl] at hpde
  simp only [mapPageEnabled, ensureTable, vread_dir h (by omega : d < 1024), Outcome.ok_bind,
    if_pos (and_present_eq_zero.mpr hn), installTable_eq h hd ha hp hf]
  exact enterPage_eq hr (by omega) ht (hpde.symm ▸ hp) _

theorem alreadyMapped_eq (h : Rooted s) (hd : d < 1024) (ht : t < 1024) :
    alreadyMapped s d t = .ok (decide (Present (s.pde d) ∧ Present (s.pte d t))) := by
  by_cases hp : Present (s.pde d)
  · have hn : ¬ s.pde d &&& pdePresent = 0 := fun h0 => and_present_eq_zero.mp h0 hp
    simp only [alreadyMapped, vread_dir h hd, Outcome.ok_bind, if_neg hn, vread_table h hd ht hp,
      Outcome.pure_eq_ok]
    congr 1
    apply decide_eq_decide.mpr
    rw [ne_eq, and_ptePresent_eq_zero, not_not]
    exact ⟨fun h => ⟨hp, h⟩, fun h => h.2⟩
  · simp only [alreadyMapped, vread_dir h hd, Outcome.ok_bind, if_pos (and_present_eq_zero.mpr hp),
      Outcome.pure_eq_ok]
    simp [hp]

theorem dropEntry_eq (h : Rooted s) (hd : d < 1024) (ht : t < 1024) (hp : Present (s.pde d)) :
    dropEntry s d t = .ok (if Present (s.pte d t) then s.removeEntry d t else s) := by
  have hw := vwrite_table h hd ht hp 0
  simp only [dropEntry, vread_table h hd ht hp, Outcome.ok_bind, hw, Outcome.pure_eq_ok]
  by_cases hq : Present (s.pte d t)
  · have : s.pte d t &&& ptePresent ≠ 0 := fun h0 => and_ptePresent_eq_zero.mp h0 hq
    rw [if_pos this, if_pos hq]
    rfl
  · have : ¬ s.pte d t &&& ptePresent ≠ 0 := not_not.mpr (and_ptePresent_eq_zero.mpr hq)
    rw [if_neg this, if_neg hq]

theorem dropTable_eq (h : Rooted s) (hd : d < 1024) :
    dropTable s d =
      if s.refCounter d = 0 ∧ d < 768 then
        pmmFreeFrame s.pmm (s.table d * 4096) >>= fun pmm =>
          .ok ((s.withPmm pmm).setWord s.cr3 d 0)
      else .ok s := by
  simp only [dropTable, vread_dir h hd, Outcome.ok_bind, and_frameMask]
  split_ifs with hc
  · congr 1
    funext pmm
    exact vwrite_dir (h.withPmm pmm) hd 0
  · rfl

end Routines

/-- What the MMU finds at directory index `d` and table index `t`: both entries,
when they are present. -/
def walkAt (s : PagingState) (d t : ℕ) : Option (ℕ × ℕ) :=
  if Present (s.pde d) ∧ Present (s.pte d t) then some (s.pde d, s.pte d t) else none

/-- The x86 walk of a virtual address. -/
def walk (s : PagingState) (va : ℕ) : Option (ℕ × ℕ) := walkAt s (dirIndex va) (tabIndex va)

end KallarOS.Paging
