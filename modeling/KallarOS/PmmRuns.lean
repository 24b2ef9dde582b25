import KallarOS.PmmInit

namespace KallarOS.Pmm
open ByteMemory

namespace PmmState

/-- The bits of the last word that stand for no frame are set. -/
def Padded (p : PmmState) : Prop := ∀ j, p.maxBlocks ≤ j → j < 32 * p.words → p.bit j = true

def Full (p : PmmState) (w : ℕ) : Prop := p.array w = 0xFFFFFFFF#32

/-- A frame that an allocation may hand out. -/
def Free (p : PmmState) (j : ℕ) : Prop := j < p.maxBlocks ∧ p.bit j = false

/-- The state after frame `b` has been handed out. -/
def allotted (p : PmmState) (b : ℕ) : PmmState := { p.take b with lastAllocatedBit := b }

@[simp] theorem bit_allotted (p : PmmState) (b j : ℕ) :
    (p.allotted b).bit j = (decide (j = b) || p.bit j) := bit_take p b j

@[simp] theorem maxBlocks_allotted (p : PmmState) (b : ℕ) :
    (p.allotted b).maxBlocks = p.maxBlocks := rfl

end PmmState

/-- Frame `b` is what a search from word `start` meets first. -/
structure Found (p : PmmState) (start b : ℕ) : Prop where
  free : p.Free b
  lowest : ∀ j, j / 32 = b / 32 → j < b → p.bit j = true
  first : ∃ k < p.words, b / 32 = (start + k) % p.words ∧
    ∀ k' < k, p.Full ((start + k') % p.words)

section Search

variable {p : PmmState}

theorem full_iff {w : ℕ} : p.Full w ↔ ∀ j < 32, p.bit (32 * w + j) = true := by
  have hsplit : ∀ j < 32, p.bit (32 * w + j) = (p.array w).getLsbD j := by
    intro j hj
    rw [PmmState.bit, show (32 * w + j) / 32 = w by omega, show (32 * w + j) % 32 = j by omega]
  have hones : (0xFFFFFFFF#32) = BitVec.allOnes 32 := by decide
  constructor
  · intro h j hj
    rw [hsplit j hj, h, hones, BitVec.getLsbD_allOnes, decide_eq_true hj]
  · intro h
    apply BitVec.eq_of_getLsbD_eq
    intro j hj
    rw [← hsplit j hj, h j hj, hones, BitVec.getLsbD_allOnes, decide_eq_true hj]

/-- `__builtin_ctz(~chunk)` is the lowest clear bit of a word that is not full. -/
theorem ctz_not {c : BitVec 32} (h : c ≠ 0xFFFFFFFF#32) :
    (~~~c).ctz.toNat < 32 ∧ c.getLsbD (~~~c).ctz.toNat = false ∧
      ∀ j < (~~~c).ctz.toNat, c.getLsbD j = true := by
  have hne : ~~~c ≠ 0#32 := by
    intro h0
    apply h
    have := congrArg (fun v => ~~~v) h0
    rw [BitVec.not_not] at this
    rw [this]
    decide
  have hlt : (~~~c).ctz.toNat < 32 := BitVec.lt_def.mp (BitVec.ctz_lt_iff_ne_zero.mpr hne)
  refine ⟨hlt, ?_, fun j hj => ?_⟩
  · have := BitVec.getLsbD_true_ctz_of_ne_zero hne
    rw [BitVec.getLsbD_not, decide_eq_true hlt, Bool.true_and] at this
    simpa using this
  · have := BitVec.getLsbD_false_of_lt_ctz hj
    rw [BitVec.getLsbD_not, decide_eq_true (by omega : j < 32), Bool.true_and] at this
    simpa using this

/-- The search from round `i` on, when all words before it were full. -/
theorem allocScan_spec (hpad : p.Padded) (hmax : p.maxBlocks ≤ 2 ^ 20) (start i n : ℕ)
    (hin : i + n = p.words) (hseen : ∀ k < i, p.Full ((start + k) % p.words)) :
    (∃ b, Found p start b ∧ allocScan p p.words start i n = .ok (b * 4096, p.allotted b)) ∨
      ((∀ k < p.words, p.Full ((start + k) % p.words)) ∧
        allocScan p p.words start i n = .ok (0, p)) := by
  induction n generalizing i with
  | zero => exact .inr ⟨fun k hk => hseen k (by omega), rfl⟩
  | succ n ih =>
    have hwords : 0 < p.words := by omega
    have hidx : (start + i) % p.words < p.words := Nat.mod_lt _ hwords
    have hword : bitmapWord p ((start + i) % p.words) = .ok (p.array ((start + i) % p.words)) :=
      if_pos hidx
    by_cases hfull : p.array ((start + i) % p.words) = 0xFFFFFFFF#32
    · have hseen' : ∀ k < i + 1, p.Full ((start + k) % p.words) := by
        intro k hk
        rcases Nat.lt_succ_iff_lt_or_eq.mp hk with h | rfl
        · exact hseen k h
        · exact hfull
      have hrec : allocScan p p.words start i (n + 1) = allocScan p p.words start (i + 1) n := by
        simp only [allocScan, hword, Outcome.ok_bind, if_pos hfull]
      rw [hrec]
      exact ih (i + 1) (by omega) hseen'
    · left
      obtain ⟨hlt, hclear, hlow⟩ := ctz_not hfull
      generalize hw : (start + i) % p.words = w at *
      generalize hk : (~~~p.array w).ctz.toNat = k at *
      have hbit : ∀ j < 32, p.bit (w * 32 + j) = (p.array w).getLsbD j := by
        intro j hj
        rw [PmmState.bit, show (w * 32 + j) / 32 = w by omega, show (w * 32 + j) % 32 = j by omega]
      have hb : p.bit (w * 32 + k) = false := (hbit k hlt).trans hclear
      -- a clear bit past the last frame would be a padding bit
      have hltmax : w * 32 + k < p.maxBlocks := by
        by_contra hge
        have hset := hpad (w * 32 + k) (by omega) (by omega)
        rw [hb] at hset
        exact Bool.noConfusion hset
      refine ⟨w * 32 + k, ⟨⟨hltmax, hb⟩, fun j hj hjb => ?_, i, by omega, ?_, hseen⟩, ?_⟩
      · have hj' : j = w * 32 + j % 32 := by omega
        rw [hj', hbit _ (by omega)]
        exact hlow _ (by omega)
      · rw [hw]
        omega
      · have haddr : (w * 32 + k) * 4096 % 2 ^ 32 = (w * 32 + k) * 4096 :=
          Nat.mod_eq_of_lt (by omega)
        have hfr : (w * 32 + k) * 4096 / 4096 = w * 32 + k := Nat.mul_div_cancel _ (by decide)
        have hno : ¬ (p.maxBlocks ≤ w * 32 + k ∨ p.bit (w * 32 + k) = true) := by
          rw [hb]
          simp
          omega
        simp only [allocScan, hw, hword, Outcome.ok_bind, if_neg hfull, hk,
          if_neg (by omega : ¬ p.maxBlocks ≤ w * 32 + k), haddr, pmmMarkUsed_eq, hfr, if_neg hno]
        rfl

/-- A cyclic scan of `n` words from any start visits word `w`. -/
theorem exists_add_mod_eq (a : ℕ) {w n : ℕ} (hw : w < n) : ∃ k < n, (a + k) % n = w := by
  have hm := Nat.mod_lt a (by omega : 0 < n)
  have hd := Nat.div_add_mod a n
  refine ⟨(w + (n - a % n)) % n, Nat.mod_lt _ (by omega), ?_⟩
  have he : a + (w + (n - a % n)) = w + n * (a / n + 1) := by
    rw [Nat.mul_add, Nat.mul_one]
    omega
  rw [Nat.add_mod_mod, he, Nat.add_mul_mod_self_left, Nat.mod_eq_of_lt hw]

/-- An allocation hands out the frame the search finds, or reports 0 when none is free. -/
theorem pmmAllocFrame_spec (hpad : p.Padded) (hmax : p.maxBlocks ≤ 2 ^ 20) :
    (∃ b, Found p (p.lastAllocatedBit / 32) b ∧
        pmmAllocFrame p = .ok (b * 4096, p.allotted b)) ∨
      ((∀ j, ¬ p.Free j) ∧ pmmAllocFrame p = .ok (0, p)) := by
  rcases allocScan_spec hpad hmax (p.lastAllocatedBit / 32) 0 p.words (by omega) (by simp) with
    ⟨b, hb, he⟩ | ⟨hfull, he⟩
  · exact .inl ⟨b, hb, he⟩
  · refine .inr ⟨fun j hj => ?_, he⟩
    have hw : j / 32 < p.words := by
      have := hj.1
      unfold PmmState.words
      omega
    -- every word is visited by the cyclic search
    obtain ⟨k, hk, hkj⟩ := exists_add_mod_eq (p.lastAllocatedBit / 32) hw
    have := full_iff.mp (hfull k hk) (j % 32) (by omega)
    rw [hkj, show 32 * (j / 32) + j % 32 = j by omega, hj.2] at this
    exact Bool.noConfusion this

end Search

section Safety

/-- The allocator together with the frames its clients currently hold. -/
structure Holding where
  pmm : PmmState
  held : List ℕ

/-- One call: an allocation, or the release of a frame that is held. -/
inductive Holding.Step : Holding → Holding → Prop where
  | alloc {s : Holding} {addr : ℕ} {pmm' : PmmState} :
      pmmAllocFrame s.pmm = .ok (addr, pmm') →
      Step s ⟨pmm', if addr = 0 then s.held else addr :: s.held⟩
  | free {s : Holding} {addr : ℕ} {pmm' : PmmState} :
      addr ∈ s.held → pmmFreeFrame s.pmm addr = .ok pmm' → Step s ⟨pmm', s.held.erase addr⟩

/-- The frames an allocation may return: inside an available entry, clear of the
kernel image, the bitmap and the first megabyte. -/
structure Grantable (l : Layout) (es : List MmapEntry) (maxBlocks j : ℕ) : Prop where
  inside : ∃ e ∈ es, e.Holds j
  unprotected : ¬ l.Protects maxBlocks j

/-- Every free frame may be granted, and the held frames are exactly some used,
grantable ones. -/
structure Holding.Safe (l : Layout) (es : List MmapEntry) (s : Holding) : Prop where
  maxBlocks : s.pmm.maxBlocks = maxBlocksOf es
  padded : s.pmm.Padded
  grantable : ∀ j, s.pmm.Free j → Grantable l es s.pmm.maxBlocks j
  aligned : ∀ a ∈ s.held, a % 4096 = 0
  nodup : s.held.Nodup
  used : ∀ a ∈ s.held, a / 4096 < s.pmm.maxBlocks ∧ s.pmm.bit (a / 4096) = true
  granted : ∀ a ∈ s.held, Grantable l es s.pmm.maxBlocks (a / 4096)

variable {l : Layout} {es : List MmapEntry}

theorem Initialized.padded (ho : ∀ e ∈ es, e.Ordinary) {p : PmmState} (h : Initialized l es p) :
    p.Padded := by
  intro j hj _
  have hno : ¬ ∃ e ∈ es, e.Covers j := by
    rintro ⟨e, he, hu, _, hlt⟩
    have := endFrame_le ho he hu
    rw [← h.maxBlocks] at this
    omega
  rw [h.bit, decide_eq_false hno]
  rfl

theorem Initialized.grantable (ho : ∀ e ∈ es, e.Ordinary) {p : PmmState} (h : Initialized l es p)
    {j : ℕ} (hj : p.Free j) : Grantable l es p.maxBlocks j := by
  have hb := hj.2
  rw [h.bit, Bool.or_eq_false_iff, Bool.not_eq_false', decide_eq_true_iff,
    decide_eq_false_iff_not] at hb
  obtain ⟨⟨e, he, hc⟩, hp⟩ := hb
  exact ⟨⟨e, he, hc.holds (ho e he)⟩, fun hpr => hp ⟨hpr, hj.1⟩⟩

theorem Initialized.safe (ho : ∀ e ∈ es, e.Ordinary) {p : PmmState} (h : Initialized l es p) :
    Holding.Safe l es ⟨p, []⟩ where
  maxBlocks := h.maxBlocks
  padded := h.padded ho
  grantable _ hj := h.grantable ho hj
  aligned := by simp
  nodup := List.nodup_nil
  used := by simp
  granted := by simp

namespace Holding.Safe

variable {s s' : Holding}

theorem maxBlocks_le (h : s.Safe l es) : s.pmm.maxBlocks ≤ 2 ^ 20 := by
  rw [h.maxBlocks]
  exact (maxBlocksOf_lt es).le

theorem grantable_pos {maxBlocks j : ℕ} (h : Grantable l es maxBlocks j) : 256 ≤ j := by
  by_contra hlt
  exact h.unprotected (.inr (.inr (by unfold Meets; omega)))

theorem alloc {b : ℕ} (h : s.Safe l es) (hf : s.pmm.Free b) :
    Holding.Safe l es ⟨s.pmm.allotted b, b * 4096 :: s.held⟩ where
  maxBlocks := h.maxBlocks
  padded j hj hw := by
    rw [PmmState.bit_allotted, h.padded j hj hw, Bool.or_true]
  grantable j hj := by
    obtain ⟨hlt, hb⟩ := hj
    rw [PmmState.bit_allotted, Bool.or_eq_false_iff] at hb
    exact h.grantable j ⟨hlt, hb.2⟩
  aligned a ha := by
    rcases List.mem_cons.mp ha with rfl | ha
    · exact Nat.mul_mod_left b 4096
    · exact h.aligned a ha
  nodup := by
    refine List.nodup_cons.mpr ⟨fun hm => ?_, h.nodup⟩
    have hu := (h.used _ hm).2
    rw [Nat.mul_div_cancel _ (by decide), hf.2] at hu
    exact Bool.noConfusion hu
  used a ha := by
    rcases List.mem_cons.mp ha with rfl | ha
    · rw [Nat.mul_div_cancel _ (by decide)]
      exact ⟨hf.1, by simp⟩
    · refine ⟨(h.used a ha).1, ?_⟩
      rw [PmmState.bit_allotted, (h.used a ha).2, Bool.or_true]
  granted a ha := by
    rcases List.mem_cons.mp ha with rfl | ha
    · rw [Nat.mul_div_cancel _ (by decide)]
      exact h.grantable b hf
    · exact h.granted a ha

theorem free {a : ℕ} (h : s.Safe l es) (ha : a ∈ s.held) :
    Holding.Safe l es ⟨s.pmm.release (a / 4096), s.held.erase a⟩ where
  maxBlocks := h.maxBlocks
  padded j hj hw := by
    have hne : j ≠ a / 4096 := fun e => by
      have := (h.used a ha).1
      rw [maxBlocks_release] at hj
      omega
    rw [bit_release, h.padded j hj hw, decide_eq_false hne]
    rfl
  grantable j hj := by
    by_cases he : j = a / 4096
    · subst he
      exact h.granted a ha
    · obtain ⟨hlt, hb⟩ := hj
      rw [bit_release, decide_eq_false he] at hb
      exact h.grantable j ⟨hlt, by simpa using hb⟩
  aligned b hb := h.aligned b (List.mem_of_mem_erase hb)
  nodup := h.nodup.erase a
  used b hb := by
    have hb' := List.mem_of_mem_erase hb
    have hba : b ≠ a := fun e => by
      rw [e] at hb
      exact h.nodup.not_mem_erase hb
    -- two aligned addresses in one frame are equal
    have hne : b / 4096 ≠ a / 4096 := fun e => by
      have h1 := h.aligned a ha
      have h2 := h.aligned b hb'
      omega
    refine ⟨(h.used b hb').1, ?_⟩
    rw [bit_release, (h.used b hb').2, decide_eq_false hne]
    rfl
  granted b hb := h.granted b (List.mem_of_mem_erase hb)

/-- Releasing a held frame succeeds. -/
theorem freeFrame_ok {a : ℕ} (h : s.Safe l es) (ha : a ∈ s.held) :
    pmmFreeFrame s.pmm a = .ok (s.pmm.release (a / 4096)) := by
  obtain ⟨hlt, hu⟩ := h.used a ha
  rw [pmmFreeFrame_eq, if_neg (by omega), if_pos hu]

theorem step (h : s.Safe l es) (hs : s.Step s') : s'.Safe l es := by
  cases hs with
  | @alloc addr pmm' he =>
    rcases pmmAllocFrame_spec h.padded h.maxBlocks_le with ⟨b, hb, hok⟩ | ⟨-, hok⟩
    · obtain ⟨rfl, rfl⟩ : b * 4096 = addr ∧ s.pmm.allotted b = pmm' := by
        simpa [hok] using he
      have hpos := grantable_pos (h.grantable b hb.free)
      rw [if_neg (by omega)]
      exact h.alloc hb.free
    · obtain ⟨rfl, rfl⟩ : 0 = addr ∧ s.pmm = pmm' := by simpa [hok] using he
      exact h
  | @free addr pmm' ha he =>
    rw [h.freeFrame_ok ha] at he
    cases he
    exact h.free ha

theorem run (h : s.Safe l es) (hr : Relation.ReflTransGen Holding.Step s s') : s'.Safe l es := by
  induction hr with
  | refl => exact h
  | tail _ hs ih => exact ih.step hs

end Holding.Safe

/-- `[a, a + 4096)` and `[start, stop)` are disjoint. -/
def Clear (a start stop : ℕ) : Prop := a + 4096 ≤ start ∨ stop ≤ a

theorem clear_of_not_meets {a start stop : ℕ} (ha : a % 4096 = 0)
    (h : ¬ Meets start stop (a / 4096)) : Clear a start stop := by
  unfold Meets at h
  unfold Clear
  omega

/-- Every frame handed out after any history of allocations and releases of held
frames is aligned, not held, inside an available entry and clear of the kernel
image, the bitmap and the first megabyte; no held frame is refused. -/
theorem frames_safe (l : Layout) (mem : Mem) (mbd : MultibootInfo) (es : List MmapEntry)
    (hm : MemoryMap mem mbd es) (ho : ∀ e ∈ es, e.Ordinary) :
    ∃ p, pmmInit l mem mbd = .ok p ∧
      ∀ s, Relation.ReflTransGen Holding.Step ⟨p, []⟩ s →
        (∃ addr pmm', pmmAllocFrame s.pmm = .ok (addr, pmm') ∧
          (addr ≠ 0 → addr % 4096 = 0 ∧ addr ∉ s.held ∧
            (∃ e ∈ es, e.Holds (addr / 4096)) ∧
            Clear addr (l.kernelStart - 0xC0000000) (l.kernelEnd - 0xC0000000) ∧
            Clear addr (l.bitmapAddr - 0xC0000000)
              (l.bitmapAddr + bitmapSizeBytes p.maxBlocks - 0xC0000000) ∧
            0x100000 ≤ addr)) ∧
        ∀ addr ∈ s.held, ∃ pmm', pmmFreeFrame s.pmm addr = .ok pmm' := by
  obtain ⟨p, hp, hi⟩ := pmmInit_ok l hm ho
  refine ⟨p, hp, fun s hr => ?_⟩
  have hs := (hi.safe ho).run hr
  refine ⟨?_, fun a ha => ⟨_, hs.freeFrame_ok ha⟩⟩
  rcases pmmAllocFrame_spec hs.padded hs.maxBlocks_le with ⟨b, hb, hok⟩ | ⟨-, hok⟩
  · refine ⟨b * 4096, _, hok, fun _ => ?_⟩
    have hg := hs.grantable b hb.free
    have hdiv : b * 4096 / 4096 = b := Nat.mul_div_cancel _ (by decide)
    have hmod : b * 4096 % 4096 = 0 := Nat.mul_mod_left b 4096
    have hmax : s.pmm.maxBlocks = p.maxBlocks := hs.maxBlocks.trans hi.maxBlocks.symm
    have hun := hg.unprotected
    rw [hmax, Layout.Protects, not_or, not_or] at hun
    refine ⟨hmod, fun hm => ?_, hdiv.symm ▸ hg.inside, ?_, ?_, ?_⟩
    · have hu := (hs.used _ hm).2
      rw [hdiv, hb.free.2] at hu
      exact Bool.noConfusion hu
    · exact clear_of_not_meets hmod (hdiv.symm ▸ hun.1)
    · exact clear_of_not_meets hmod (hdiv.symm ▸ hun.2.1)
    · have := Holding.Safe.grantable_pos hg
      omega
  · exact ⟨0, _, hok, fun h => absurd rfl h⟩

end Safety

section Example

/-- Three megabytes of RAM from 1 MiB on, described by one entry at 0x1000. -/
def sampleMap : Mem := fun i =>
  if i = 0xC0001000 then 20 else if i = 0xC0001006 then 0x10 else if i = 0xC000100E then 0x30
  else if i = 0xC0001014 then 1 else 0

def sampleEntry : MmapEntry := { size := 20, addr := 0x100000, len := 0x300000, type := 1 }

def sampleLayout : Layout where
  kernelStart := 0xC0100000
  kernelEnd := 0xC0120000
  bitmapAddr := 0xC0120000
  higherHalf := by decide
  ordered := by decide
  behind := by decide
  room := by decide

theorem sampleMap_wellFormed : MemoryMap sampleMap ⟨0x1000, 24⟩ [sampleEntry] :=
  ⟨by decide, by decide, by decide, rfl⟩

theorem sampleEntry_ordinary : ∀ e ∈ [sampleEntry], e.Ordinary := by
  intro e he
  obtain rfl : e = sampleEntry := by simpa using he
  exact ⟨fun _ => by decide, fun _ => by decide, fun _ => by decide⟩

theorem sample_free {p : PmmState} (hi : Initialized sampleLayout [sampleEntry] p) :
    p.Free 0x200 ∧ p.Free 0x201 ∧ p.Free 0x202 := by
  have hmax : p.maxBlocks = 0x400 := hi.maxBlocks.trans (by decide)
  refine ⟨⟨?_, ?_⟩, ⟨?_, ?_⟩, ?_, ?_⟩
  all_goals first | (rw [hi.bit, hmax]; decide) | (rw [hmax]; decide)

/-- The first allocation after boot finds a frame above the first megabyte. -/
theorem sample_alloc : ∃ p b, pmmInit sampleLayout sampleMap ⟨0x1000, 24⟩ = .ok p ∧
    p.maxBlocks = 0x400 ∧ 256 ≤ b ∧ b < p.maxBlocks ∧
      pmmAllocFrame p = .ok (b * 4096, p.allotted b) := by
  obtain ⟨p, hp, hi⟩ := pmmInit_ok sampleLayout sampleMap_wellFormed sampleEntry_ordinary
  have hsafe := hi.safe sampleEntry_ordinary
  rcases pmmAllocFrame_spec hsafe.padded hsafe.maxBlocks_le with ⟨b, hb, hok⟩ | ⟨hfull, -⟩
  · exact ⟨p, b, hp, hi.maxBlocks.trans (by decide),
      Holding.Safe.grantable_pos (hsafe.grantable b hb.free), hb.free.1, hok⟩
  · exact absurd (sample_free hi).1 (hfull 0x200)

/-- One frame is held; it is not handed out again, and can be released. -/
theorem frames_safe_sample :
    ∃ p addr pmm', pmmInit sampleLayout sampleMap ⟨0x1000, 24⟩ = .ok p ∧
      pmmAllocFrame p = .ok (addr, pmm') ∧ addr ≠ 0 ∧
      (∃ e ∈ [sampleEntry], e.Holds (addr / 4096)) ∧ Clear addr 0x100000 0x120000 ∧
      (∃ addr' pmm'', pmmAllocFrame pmm' = .ok (addr', pmm'') ∧ addr' ≠ addr) ∧
      ∃ pmm'', pmmFreeFrame pmm' addr = .ok pmm'' := by
  obtain ⟨p, hp, h⟩ := frames_safe sampleLayout sampleMap ⟨0x1000, 24⟩ [sampleEntry]
    sampleMap_wellFormed sampleEntry_ordinary
  obtain ⟨p', b, hp', -, hb, -, hok⟩ := sample_alloc
  cases hp.symm.trans hp'
  obtain ⟨⟨addr, pmm', ha, hs⟩, -⟩ := h ⟨p, []⟩ .refl
  cases hok.symm.trans ha
  have h0 : b * 4096 ≠ 0 := by omega
  obtain ⟨-, -, hholds, hclear, -⟩ := hs h0
  have hstep := Holding.Step.alloc (s := ⟨p, []⟩) hok
  rw [if_neg h0] at hstep
  obtain ⟨⟨addr', pmm'', ha', hs'⟩, hfree⟩ := h _ (.single hstep)
  refine ⟨p, _, _, hp, hok, h0, hholds, hclear, ⟨addr', pmm'', ha', ?_⟩,
    hfree _ (List.mem_singleton_self _)⟩
  by_cases h0' : addr' = 0
  · rw [h0']
    exact h0.symm
  · exact fun he => (hs' h0').2.1 (he ▸ List.mem_singleton_self _)

end Example
end KallarOS.Pmm
