import KallarOS.LoaderModel
import KallarOS.PagingCoherence

namespace KallarOS.Loader
open Paging Caches Relation Machine

namespace Image

variable (img : Image)

/-- The frames of the directory, of the boot table and of the kernel stack. -/
def directory : ℕ := img.bss / 4096

def table : ℕ := img.directory + 1

def stack : ℕ := img.directory + 2

theorem bss_eq : img.bss = img.directory * 4096 := by
  have := img.aligned
  unfold directory
  omega

/-- Where word `j` of the directory lies. -/
theorem directory_word {j : ℕ} (hj : j < 1024) :
    (img.bootPageDirectory + j * 4) / 4096 = img.directory ∧
      (img.bootPageDirectory + j * 4) % 4096 / 4 = j := by
  have := img.aligned
  unfold bootPageDirectory directory
  omega

theorem directory_lt : img.directory + 3 ≤ 1024 := by
  have := img.fits
  unfold directory
  omega

end Image

namespace Machine

variable (m : Machine) (r : Reg) (a value n : ℕ)

/-- The machine behind an instruction of `n` bytes. -/
def next : Machine := { m with eip := m.eip + n }

theorem ram_setWord (f i : ℕ) : (m.setWord a value).ram f i =
    if f = a / 4096 ∧ i = a % 4096 / 4 then value else m.ram f i := by
  simp only [setWord, Function.update_apply]
  by_cases hf : f = a / 4096
  · subst hf
    simp [Function.update_apply]
  · simp [hf]

@[simp] theorem reg_next : (m.next n).reg = m.reg := rfl
@[simp] theorem eip_next : (m.next n).eip = m.eip + n := rfl
@[simp] theorem ram_next : (m.next n).ram = m.ram := rfl
@[simp] theorem reg_setWord : (m.setWord a value).reg = m.reg := rfl
@[simp] theorem eip_setWord : (m.setWord a value).eip = m.eip := rfl
@[simp] theorem cr3_setWord : (m.setWord a value).cr3 = m.cr3 := rfl
@[simp] theorem eip_setReg : (m.setReg r value).eip = m.eip := rfl
@[simp] theorem paging_next : (m.next n).paging = m.paging := rfl
@[simp] theorem paging_setReg : (m.setReg r value).paging = m.paging := rfl
@[simp] theorem paging_setWord : (m.setWord a value).paging = m.paging := rfl
@[simp] theorem reg_setCr3 : (m.setCr3 value).reg = m.reg := rfl
@[simp] theorem ram_setCr3 : (m.setCr3 value).ram = m.ram := rfl
@[simp] theorem cr3_setCr3 : (m.setCr3 value).cr3 = value := rfl
@[simp] theorem cr0_setCr3 : (m.setCr3 value).cr0 = m.cr0 := rfl
@[simp] theorem cr0_setWord : (m.setWord a value).cr0 = m.cr0 := rfl
@[simp] theorem cr0_setReg : (m.setReg r value).cr0 = m.cr0 := rfl
@[simp] theorem cr0_next : (m.next n).cr0 = m.cr0 := rfl
@[simp] theorem cr3_setReg : (m.setReg r value).cr3 = m.cr3 := rfl
@[simp] theorem cr3_next : (m.next n).cr3 = m.cr3 := rfl
@[simp] theorem ram_setReg : (m.setReg r value).ram = m.ram := rfl
@[simp] theorem reg_setReg_self : (m.setReg r value).reg r = value := by simp [setReg]

theorem reg_setReg_of_ne {q : Reg} (h : q ≠ r) : (m.setReg r value).reg q = m.reg q := by simp [setReg, h]

end Machine

section Low

variable {img : Image} {m m' m₀ : Machine} {i : Instr} {n k offset va value : ℕ}

theorem translate_low (hp : m.paging = false) (va : ℕ) : m.translate va = .ok (va, m) := by
  simp [Machine.translate, hp]

theorem storeWord_low (hp : m.paging = false) (va value : ℕ) :
    m.storeWord va value = .ok (m.setWord va value) := by
  rw [storeWord, translate_low hp]
  rfl

/-- With paging off the loader runs where it was loaded. -/
theorem step_low (hp : m.paging = false) (he : m.eip = img.loader + offset)
    (hi : instrAt (listing img) offset = some (i, n)) : step img m = exec i (m.next n) := by
  have hoff : img.loader + offset - img.loader = offset := by omega
  have hfetch : fetch img m = .ok (i, n, m) := by
    simp only [fetch, translate_low hp, Outcome.ok_bind, he, Nat.le_add_right, if_true, hoff, hi]
    rfl
  rw [step, hfetch]
  rfl

/-- No jump, and no change of the paging bit. -/
def Straight : Instr → Prop
  | .mov .. | .movImm .. | .orImm .. | .addImm .. | .store .. | .storeAt .. | .toCr3 _ | .fromCr0 _ => True
  | _ => False

theorem exec_straight (hs : Straight i) (hp : m.paging = false) (hx : exec i m = .ok m') :
    m'.paging = false ∧ m'.eip = m.eip := by
  cases i with
  | store base src =>
    rw [exec, storeWord_low hp] at hx
    cases hx
    exact ⟨hp, rfl⟩
  | storeAt address src =>
    rw [exec, storeWord_low hp] at hx
    cases hx
    exact ⟨hp, rfl⟩
  | mov | movImm | orImm | addImm | toCr3 | fromCr0 =>
    cases hx
    exact ⟨hp, rfl⟩
  | storeImm | loop | fromCr3 | toCr0 | lea | jmpReg | jmp | cli | push | call | hlt => cases hs

/-- The effect of a row of instructions, without their fetches. -/
def execAll : List (Instr × ℕ) → Machine → Outcome Machine
  | [], m => .ok m
  | (i, n) :: rest, m => do
    let m ← exec i (m.next n)
    execAll rest m

/-- The row stands in the code from `offset` up to `stop`. -/
def Listed (img : Image) (offset stop : ℕ) : List (Instr × ℕ) → Prop
  | [] => offset = stop
  | (i, n) :: rest => instrAt (listing img) offset = some (i, n) ∧ Listed img (offset + n) stop rest

theorem block_low {stop : ℕ} {block : List (Instr × ℕ)} (hl : Listed img offset stop block)
    (hs : ∀ b ∈ block, Straight b.1) (hp : m.paging = false) (he : m.eip = img.loader + offset)
    (hx : execAll block m = .ok m') :
    ReflTransGen (Step img) m m' ∧ m'.paging = false ∧ m'.eip = img.loader + stop := by
  induction block generalizing m offset with
  | nil =>
    cases hx
    exact ⟨.refl, hp, hl ▸ he⟩
  | cons b rest ih =>
    obtain ⟨i, n⟩ := b
    obtain ⟨m₁, h₁, hrest⟩ := Outcome.bind_eq_ok.mp hx
    have hstep : Step img m m₁ := (step_low hp he hl.1).trans h₁
    have hp' : (m.next n).paging = false := hp
    obtain ⟨hp₁, he₁⟩ := exec_straight (hs _ List.mem_cons_self) hp' h₁
    have he₂ : m₁.eip = img.loader + (offset + n) := by
      rw [he₁, eip_next, he]
      omega
    obtain ⟨hrun, hend⟩ := ih hl.2 (fun c hc => hs c (List.mem_cons_of_mem _ hc)) hp₁ he₂ hrest
    exact ⟨.head hstep hrun, hend⟩

theorem block_ends {stop : ℕ} {block : List (Instr × ℕ)} {Q : Machine → Prop}
    (hl : Listed img offset stop block) (hs : ∀ b ∈ block, Straight b.1) (hp : m.paging = false)
    (he : m.eip = img.loader + offset) (hx : ∃ m', execAll block m = .ok m' ∧ Q m') :
    ∃ m', ReflTransGen (Step img) m m' ∧ m'.paging = false ∧ m'.eip = img.loader + stop ∧ Q m' := by
  obtain ⟨m', hx, hq⟩ := hx
  obtain ⟨hrun, hp', he'⟩ := block_low hl hs hp he hx
  exact ⟨m', hrun, hp', he', hq⟩

/-- `k` entries of the table are written. -/
structure Filling (img : Image) (m₀ : Machine) (k : ℕ) (m : Machine) : Prop where
  ecx : m.reg .ecx = 1024 - k
  esi : m.reg .esi = 4096 * k
  edi : m.reg .edi = img.bootPageTable1 + 4 * k
  ebp : m.reg .ebp = m₀.reg .eax
  ebx : m.reg .ebx = m₀.reg .ebx
  cr0 : m.cr0 = m₀.cr0
  ram : ∀ f i, m.ram f i = if f = img.table ∧ i < k then i * 4096 ||| 3 else m₀.ram f i

theorem prelude_runs (hp : m.paging = false) (he : m.eip = img.loader) :
    ∃ m', ReflTransGen (Step img) m m' ∧ m'.paging = false ∧ m'.eip = img.loader + 17 ∧
      Filling img m 0 m' := by
  let block : List (Instr × ℕ) := [(.mov .ebp .eax, 2), (.movImm .edi img.bootPageTable1, 5),
    (.movImm .esi 0, 5), (.movImm .ecx 1024, 5)]
  have hl : Listed img 0 17 block := ⟨rfl, rfl, rfl, rfl, rfl⟩
  have hs : ∀ b ∈ block, Straight b.1 := by simp [block, Straight]
  apply block_ends hl hs hp (he.trans (Nat.add_zero _).symm)
  refine ⟨_, rfl, rfl, rfl, rfl, rfl, rfl, rfl, fun f i => ?_⟩
  simp [setReg, next]

/-- One turn of `.fill_table`, up to its `loop`. -/
theorem body_runs (hp : m.paging = false) (he : m.eip = img.loader + 17) (h : Filling img m₀ k m)
    (hk : k < 1024) :
    ∃ m', ReflTransGen (Step img) m m' ∧ m'.paging = false ∧ m'.eip = img.loader + 33 ∧
      m'.reg .ecx = 1024 - k ∧ Filling img m₀ (k + 1) (m'.setReg .ecx (1024 - (k + 1))) := by
  let block : List (Instr × ℕ) := [(.mov .edx .esi, 2), (.orImm .edx 3, 3), (.store .edi .edx, 2),
    (.addImm .esi 4096, 6), (.addImm .edi 4, 3)]
  have hl : Listed img 17 33 block := ⟨rfl, rfl, rfl, rfl, rfl, rfl⟩
  have hs : ∀ b ∈ block, Straight b.1 := by simp [block, Straight]
  have hbss := img.bss_eq
  have hfit := img.directory_lt
  have hedi : m.reg .edi = img.bss + 4096 + 4 * k := h.edi
  have hfr : m.reg .edi / 4096 = img.table := by unfold Image.table; omega
  have hix : m.reg .edi % 4096 / 4 = k := by omega
  apply block_ends hl hs hp he
  simp only [block, execAll, exec, storeWord_low, paging_next, paging_setReg, hp, Outcome.ok_bind]
  refine ⟨_, rfl, ?_, ?_, ?_, ?_, ?_, ?_, ?_, ?_⟩
  · simp [reg_setReg_of_ne, h.ecx]
  · simp
  · simp [reg_setReg_of_ne, h.esi]
    omega
  · simp [reg_setReg_of_ne, h.edi, Image.bootPageTable1]
    omega
  · simp [reg_setReg_of_ne, h.ebp]
  · simp [reg_setReg_of_ne, h.ebx]
  · exact h.cr0
  · intro f i
    simp [reg_setReg_of_ne, ram_setWord, hfr, hix, h.ram, h.esi]
    by_cases hf : f = img.table
    · by_cases hi : i = k
      · simp [hf, hi, Nat.mul_comm]
      · have hle : i ≤ k ↔ i < k := by omega
        simp [hf, hi, hle]
    · simp [hf]

theorem Image.loader_lt (img : Image) : img.loader < 0x400000 := by
  have := img.behind
  have := img.fits
  omega

/-- `loop .fill_table` goes back 1023 times. -/
theorem turn_runs (hp : m.paging = false) (he : m.eip = img.loader + 17) (h : Filling img m₀ k m)
    (hk : k < 1024) :
    ∃ m', ReflTransGen (Step img) m m' ∧ m'.paging = false ∧
      m'.eip = img.loader + (if k + 1 < 1024 then 17 else 35) ∧ Filling img m₀ (k + 1) m' := by
  obtain ⟨m₁, hrun, hp₁, he₁, hecx, hfill⟩ := body_runs hp he h hk
  have hstep := step_low hp₁ he₁ (rfl : instrAt (listing img) 33 = some (.loop (2 ^ 32 - 18), 2))
  have hval : (1024 - k + 2 ^ 32 - 1) % 2 ^ 32 = 1024 - (k + 1) := by omega
  simp only [exec, reg_next, hecx, hval] at hstep
  have hload := img.loader_lt
  by_cases hlast : k + 1 < 1024
  · have hnz : ¬ 1024 - (k + 1) = 0 := by omega
    rw [if_neg hnz] at hstep
    refine ⟨_, hrun.tail hstep, hp₁, ?_, ⟨hfill.ecx, hfill.esi, hfill.edi, hfill.ebp, hfill.ebx,
      hfill.cr0, hfill.ram⟩⟩
    rw [if_pos hlast]
    simp only [jump, eip_setReg, eip_next, he₁]
    omega
  · have hz : 1024 - (k + 1) = 0 := by omega
    rw [if_pos hz] at hstep
    refine ⟨_, hrun.tail hstep, hp₁, ?_, ⟨hfill.ecx, hfill.esi, hfill.edi, hfill.ebp, hfill.ebx,
      hfill.cr0, hfill.ram⟩⟩
    rw [if_neg hlast, eip_setReg, eip_next, he₁]

theorem fill_runs (hp : m.paging = false) (he : m.eip = img.loader + 17) (h : Filling img m₀ 0 m)
    (hk : k ≤ 1024) :
    ∃ m', ReflTransGen (Step img) m m' ∧ m'.paging = false ∧
      m'.eip = img.loader + (if k < 1024 then 17 else 35) ∧ Filling img m₀ k m' := by
  induction k with
  | zero => exact ⟨m, .refl, hp, he, h⟩
  | succ k ih =>
    obtain ⟨m₁, hrun, hp₁, he₁, h₁⟩ := ih (by omega)
    rw [if_pos (by omega : k < 1024)] at he₁
    obtain ⟨m₂, hrun₂, hend⟩ := turn_runs hp₁ he₁ h₁ (by omega)
    exact ⟨m₂, hrun.trans hrun₂, hend⟩

/-- The directory and the table of the boot code, with `first` still at index 0. -/
structure Tables (img : Image) (first : ℕ) (m : Machine) : Prop where
  cr3 : frameOf m.cr3 = img.directory
  dir : ∀ d < 1024, m.ram img.directory d =
    if d = 0 then first else bootDirectory img.directory img.table d
  table : ∀ i < 1024, m.ram img.table i = i * 4096 ||| 3

/-- What the loader started with and still holds. -/
structure Kept (img : Image) (m₀ m : Machine) : Prop where
  ebp : m.reg .ebp = m₀.reg .eax
  ebx : m.reg .ebx = m₀.reg .ebx
  ram : ∀ f, f ≠ img.directory → f ≠ img.table → ∀ i, m.ram f i = m₀.ram f i

theorem frameOf_entry {a : ℕ} (ha : a % 4096 = 0) (hlt : a < 0x400000) :
    frameOf (a ||| 3) = a / 4096 := by
  rw [frameOf_or ha (by decide)]
  omega

/-- From the end of the table to the moment paging is on. -/
theorem enable_runs (hp : m.paging = false) (he : m.eip = img.loader + 35)
    (h : Filling img m₀ 1024 m) (hbss : ∀ d < 1024, m₀.ram img.directory d = 0) :
    ∃ m', ReflTransGen (Step img) m m' ∧ m'.paging = true ∧ m'.eip = img.loader + 80 ∧
      m'.tlb = (fun _ => none) ∧ Tables img (img.table * 4096 ||| 3) m' ∧ Kept img m₀ m' := by
  let block : List (Instr × ℕ) := [(.movImm .eax img.bootPageTable1, 5), (.orImm .eax 3, 3),
    (.storeAt (img.bootPageDirectory + 0) .eax, 5),
    (.storeAt (img.bootPageDirectory + 768 * 4) .eax, 5),
    (.movImm .eax img.bootPageDirectory, 5), (.orImm .eax 3, 3),
    (.storeAt (img.bootPageDirectory + 1023 * 4) .eax, 5),
    (.toCr3 .eax, 3), (.fromCr0 .eax, 3), (.orImm .eax 0x80000000, 5)]
  have hl : Listed img 35 77 block := ⟨rfl, rfl, rfl, rfl, rfl, rfl, rfl, rfl, rfl, rfl, rfl⟩
  have hs : ∀ b ∈ block, Straight b.1 := by simp [block, Straight]
  have hbss_eq := img.bss_eq
  have hfit := img.directory_lt
  have hne : ¬ img.directory = img.table := by unfold Image.table; omega
  have htable : img.bootPageTable1 = img.table * 4096 := by
    unfold Image.bootPageTable1 Image.table
    omega
  obtain ⟨h0, h0'⟩ := img.directory_word (by decide : 0 < 1024)
  obtain ⟨h768, h768'⟩ := img.directory_word (by decide : 768 < 1024)
  obtain ⟨h1023, h1023'⟩ := img.directory_word (by decide : 1023 < 1024)
  rw [Nat.zero_mul, Nat.add_zero] at h0 h0'
  have hblock : ∃ m', ReflTransGen (Step img) m m' ∧ m'.paging = false ∧ m'.eip = img.loader + 77 ∧
      m'.reg .eax = m.cr0 ||| 0x80000000 ∧ Tables img (img.table * 4096 ||| 3) m' ∧
      Kept img m₀ m' := by
    apply block_ends hl hs hp he
    simp only [block, execAll, exec, storeWord_low, paging_next, paging_setReg, paging_setWord, hp,
      Outcome.ok_bind]
    refine ⟨_, rfl, ?_, ⟨?_, ?_, ?_⟩, ⟨?_, ?_, ?_⟩⟩
    · simp
    · simp only [cr3_setReg, cr3_next, cr3_setCr3, reg_setReg_self, reg_setWord, reg_next]
      exact frameOf_entry img.aligned (by omega)
    · intro d hd
      simp only [ram_setReg, ram_next, ram_setCr3, ram_setWord, reg_setReg_self, reg_setWord, reg_next,
        Nat.add_zero, h0, h0', h768, h768', h1023, h1023', true_and, h.ram, hne, false_and, if_false,
        hbss d hd, htable, bootDirectory]
      by_cases h1 : d = 1023
      · simp [h1, Image.bootPageDirectory, hbss_eq]
      · by_cases h2 : d = 768
        · simp [h2]
        · simp [h1, h2]
    · intro i hi
      simp only [ram_setReg, ram_next, ram_setCr3, ram_setWord, h0, h768, h1023, Nat.add_zero, Ne.symm hne,
        false_and, if_false, h.ram, true_and, hi, if_true]
    · simp [reg_setReg_of_ne, h.ebp]
    · simp [reg_setReg_of_ne, h.ebx]
    · intro f hd ht i
      simp only [ram_setReg, ram_next, ram_setCr3, ram_setWord, h0, h768, h1023, Nat.add_zero, hd,
        false_and, if_false, h.ram, ht]
  obtain ⟨m₁, hrun, hp₁, he₁, heax, htab, hkept⟩ := hblock
  have hbit : (m.cr0 ||| 0x80000000).testBit 31 = true := by
    rw [Nat.testBit_or]
    have h31 : Nat.testBit 0x80000000 31 = true := by decide
    rw [h31, Bool.or_true]
  have hstep := step_low hp₁ he₁ (rfl : instrAt (listing img) 77 = some (.toCr0 .eax, 3))
  simp only [exec, reg_next, heax, setCr0, paging_next, hp₁, hbit, Bool.true_eq_false, if_false] at hstep
  refine ⟨_, hrun.tail hstep, hbit, ?_, rfl, ⟨htab.cr3, htab.dir, htab.table⟩,
    ⟨hkept.ebp, hkept.ebx, hkept.ram⟩⟩
  rw [eip_next, he₁]

end Low

section Upper

variable {img : Image} {P Q R : Set ℕ} {m m' m'' : Machine} {i : Instr}
  {a base d first n offset value : ℕ} {r : Reg}

/-- The addresses from `base` on show the first 4 MiB of the memory, through pages of `P`. -/
structure Shows (P : Set ℕ) (base : ℕ) (m : Machine) : Prop where
  aligned : base % 4096 = 0
  mem : ∀ a < 0x400000, (base + a) / 4096 ∈ P
  frame : ∀ a < 0x400000, ∃ w, m.pages ((base + a) / 4096) = some w ∧ frameOf w.2 = a / 4096

theorem Shows.translate (h : Shows P base m) (hp : m.paging = true)
    (hc : CoherentOn P m.tlb m.pages) (ha : a < 0x400000) :
    ∃ tlb, CoherentOn P tlb m.pages ∧ m.translate (base + a) = .ok (a, { m with tlb := tlb }) := by
  obtain ⟨w, hw, hf⟩ := h.frame a ha
  have hbase := h.aligned
  have hoff : (base + a) % 4096 = a % 4096 := by omega
  have hadd : frameOf w.2 * 4096 + (base + a) % 4096 = a := by
    rw [hf, hoff]
    omega
  refine ⟨fill m.tlb m.pages ((base + a) / 4096), hc.refill (refills_fill _ _ _), ?_⟩
  rw [Machine.translate, if_pos hp, hc.lookup_eq (h.mem a ha), hw]
  simp only [hadd]

theorem Shows.storeWord (h : Shows P base m) (hp : m.paging = true)
    (hc : CoherentOn P m.tlb m.pages) (ha : a < 0x400000) (value : ℕ) :
    ∃ tlb, CoherentOn P tlb m.pages ∧
      m.storeWord (base + a) value = .ok { m.setWord a value with tlb := tlb } := by
  obtain ⟨tlb, htlb, htr⟩ := h.translate hp hc ha
  refine ⟨tlb, htlb, ?_⟩
  rw [Machine.storeWord, htr]
  rfl

theorem Shows.fetch (h : Shows P base m) (hp : m.paging = true) (hc : CoherentOn P m.tlb m.pages)
    (he : m.eip = base + (img.loader + offset)) (hi : instrAt (listing img) offset = some (i, n))
    (hlen : offset + n ≤ 120) (hn : 0 < n) :
    ∃ tlb, CoherentOn P tlb m.pages ∧ fetch img m = .ok (i, n, { m with tlb := tlb }) := by
  have hbehind := img.behind
  have hfits := img.fits
  obtain ⟨tlb₁, hc₁, ht₁⟩ := h.translate hp hc (by omega : img.loader + offset < 0x400000)
  have h₁ : Shows P base { m with tlb := tlb₁ } := ⟨h.aligned, h.mem, h.frame⟩
  obtain ⟨tlb₂, hc₂, ht₂⟩ := h₁.translate hp hc₁ (by omega : img.loader + offset + (n - 1) < 0x400000)
  have hlast : m.eip + (n - 1) = base + (img.loader + offset + (n - 1)) := by omega
  have hoff : img.loader + offset - img.loader = offset := by omega
  refine ⟨tlb₂, hc₂, ?_⟩
  rw [Loader.fetch, he, ht₁]
  simp only [Outcome.ok_bind, Nat.le_add_right, if_true, hoff, hi]
  rw [← he, hlast, ht₂]
  simp only [Outcome.ok_bind, if_true]
  rfl

/-- From every cache that is coherent on `P`, the machine gets to `m'` with one that is
coherent on `Q`. -/
def Reach (img : Image) (P : Set ℕ) (m : Machine) (Q : Set ℕ) (m' : Machine) : Prop :=
  ∀ tlb, CoherentOn P tlb m.pages → ∃ tlb', CoherentOn Q tlb' m'.pages ∧
    ReflTransGen (Step img) { m with tlb := tlb } { m' with tlb := tlb' }

theorem Reach.trans (h : Reach img P m Q m') (h' : Reach img Q m' R m'') : Reach img P m R m'' := by
  intro tlb hc
  obtain ⟨tlb₁, hc₁, hrun⟩ := h tlb hc
  obtain ⟨tlb₂, hc₂, hrun'⟩ := h' tlb₁ hc₁
  exact ⟨tlb₂, hc₂, hrun.trans hrun'⟩

/-- One instruction, fetched through the MMU. -/
theorem Shows.reach (h : Shows P base m) (hp : m.paging = true)
    (he : m.eip = base + (img.loader + offset)) (hi : instrAt (listing img) offset = some (i, n))
    (hlen : offset + n ≤ 120) (hn : 0 < n)
    (hx : ∀ tlb, CoherentOn P tlb m.pages → ∃ tlb', CoherentOn Q tlb' m'.pages ∧
      exec i ({ m with tlb := tlb }.next n) = .ok { m' with tlb := tlb' }) :
    Reach img P m Q m' := by
  intro tlb hc
  have h' : Shows P base { m with tlb := tlb } := ⟨h.aligned, h.mem, h.frame⟩
  obtain ⟨tlb₁, hc₁, hf⟩ := h'.fetch hp hc he hi hlen hn
  obtain ⟨tlb₂, hc₂, hexec⟩ := hx tlb₁ hc₁
  refine ⟨tlb₂, hc₂, .single ?_⟩
  rw [Step, step, hf]
  exact hexec

/-- An instruction that touches neither the memory nor the translations. -/
theorem Shows.reach_plain (h : Shows P base m) (hp : m.paging = true)
    (he : m.eip = base + (img.loader + offset)) (hi : instrAt (listing img) offset = some (i, n))
    (hlen : offset + n ≤ 120) (hn : 0 < n) (hpages : m'.pages = m.pages)
    (hx : ∀ tlb, exec i ({ m with tlb := tlb }.next n) = .ok { m' with tlb := tlb }) :
    Reach img P m P m' :=
  h.reach hp he hi hlen hn fun tlb hc => ⟨tlb, hpages.symm ▸ hc, hx tlb⟩

/-- `Shows` reads the memory and CR3. -/
theorem Shows.congr (h : Shows P base m) (hpages : m'.pages = m.pages) : Shows P base m' :=
  ⟨h.aligned, h.mem, fun a ha => hpages.symm ▸ h.frame a ha⟩

theorem Shows.push (h : Shows P base m) (hp : m.paging = true) (hc : CoherentOn P m.tlb m.pages)
    (ha : a < 0x400000) (hesp : (m.reg .esp + 2 ^ 32 - 4) % 2 ^ 32 = base + a) (value : ℕ) :
    ∃ tlb, CoherentOn P tlb m.pages ∧
      m.push value = .ok { (m.setWord a value).setReg .esp (base + a) with tlb := tlb } := by
  obtain ⟨tlb, htlb, hst⟩ := h.storeWord hp hc ha value
  refine ⟨tlb, htlb, ?_⟩
  simp only [Machine.push, hesp, hst, Outcome.ok_bind]
  rfl

theorem frameOf_frame {b : ℕ} (hb : b < 1024) : frameOf (b * 4096 ||| 3) = b := by
  rw [frameOf_entry (Nat.mul_mod_left b 4096) (by omega)]
  omega

theorem present_frame (b : ℕ) : Present (b * 4096 ||| 3) :=
  (present_or (Nat.mul_mod_left b 4096) (by decide)).mpr (by decide)

namespace Tables

theorem pages_eq (h : Tables img first m)
    (hentry : m.ram img.directory d = img.table * 4096 ||| 3) {j : ℕ} (hj : j < 1024) :
    m.pages (1024 * d + j) = some (img.table * 4096 ||| 3, j * 4096 ||| 3) := by
  have hfit := img.directory_lt
  have h1 : (1024 * d + j) / 1024 = d := by omega
  have h2 : (1024 * d + j) % 1024 = j := by omega
  have hfr : frameOf (img.table * 4096 ||| 3) = img.table :=
    frameOf_frame (by unfold Image.table; omega)
  simp only [pages, h.cr3, h1, h2, hentry, hfr, h.table j hj]
  rw [if_pos ⟨present_frame _, present_frame _⟩]

/-- A slot of the directory that holds the boot table shows the first 4 MiB. -/
theorem shows (h : Tables img first m)
    (hentry : m.ram img.directory d = img.table * 4096 ||| 3) (hP : ∀ j < 1024, 1024 * d + j ∈ P) :
    Shows P (d * 0x400000) m := by
  have hsplit : ∀ a, (d * 0x400000 + a) / 4096 = 1024 * d + a / 4096 := by
    intro a
    omega
  refine ⟨by omega, fun a ha => ?_, fun a ha => ?_⟩
  · rw [hsplit]
    exact hP _ (by omega)
  · have hpage := h.pages_eq hentry (by omega : a / 4096 < 1024)
    rw [← hsplit] at hpage
    exact ⟨_, hpage, frameOf_frame (by omega)⟩

theorem kernel (h : Tables img first m) : m.ram img.directory 768 = img.table * 4096 ||| 3 := by
  rw [h.dir 768 (by decide)]
  rfl

/-- The upper half shows the first 4 MiB, whatever stands at index 0. -/
theorem upper (h : Tables img first m) (hP : ∀ v, 0xC0000 ≤ v → v < 0xC0400 → v ∈ P) :
    Shows P kernelVirtualBase m :=
  h.shows h.kernel fun j hj => hP _ (by omega) (by omega)

/-- Every present entry of the directory leads to the boot table or to the directory. -/
theorem frame_cases (h : Tables img 0 m) (hd : d < 1024) (hp : Present (m.ram img.directory d)) :
    frameOf (m.ram img.directory d) = img.table ∨ frameOf (m.ram img.directory d) = img.directory := by
  have hfit := img.directory_lt
  have habs : ¬ Present 0 := by decide
  rw [h.dir d hd] at hp ⊢
  unfold bootDirectory at hp ⊢
  split_ifs at hp ⊢
  · exact absurd hp habs
  · exact .inl (frameOf_frame (by unfold Image.table; omega))
  · exact .inr (frameOf_frame (by omega))
  · exact absurd hp habs

/-- A store outside the directory and the table changes no translation. -/
theorem pages_setWord (h : Tables img 0 m) (hdir : a / 4096 ≠ img.directory)
    (htab : a / 4096 ≠ img.table) (value : ℕ) {v : ℕ} (hv : v ∈ allPages) :
    (m.setWord a value).pages v = m.pages v := by
  have hd : v / 1024 < 1024 := by
    have : v < 0x100000 := hv
    omega
  simp only [pages, cr3_setWord, ram_setWord, h.cr3, Ne.symm hdir, false_and, if_false]
  by_cases hp : Present (m.ram img.directory (v / 1024))
  · have hne : frameOf (m.ram img.directory (v / 1024)) ≠ a / 4096 := by
      rcases h.frame_cases hd hp with he | he
      · rw [he]
        exact htab.symm
      · rw [he]
        exact hdir.symm
    simp only [hne, false_and, if_false]
  · simp only [hp, false_and, if_false]

theorem setWord (h : Tables img first m) (hdir : a / 4096 ≠ img.directory)
    (htab : a / 4096 ≠ img.table) (value : ℕ) : Tables img first (m.setWord a value) := by
  refine ⟨h.cr3, fun d hd => ?_, fun i hi => ?_⟩
  · rw [ram_setWord, if_neg fun hc => hdir hc.1.symm, h.dir d hd]
  · rw [ram_setWord, if_neg fun hc => htab hc.1.symm, h.table i hi]

/-- The identity map goes. -/
theorem clear (h : Tables img first m) : Tables img 0 (m.setWord img.bootPageDirectory 0) := by
  obtain ⟨h0, h0'⟩ := img.directory_word (by decide : 0 < 1024)
  rw [Nat.zero_mul, Nat.add_zero] at h0 h0'
  have hne : ¬ img.table = img.directory := by unfold Image.table; omega
  refine ⟨h.cr3, fun d hd => ?_, fun i hi => ?_⟩
  · rw [ram_setWord, h0, h0', h.dir d hd]
    by_cases h1 : d = 0
    · rw [if_pos ⟨rfl, h1⟩, if_pos h1]
    · rw [if_neg fun hc => h1 hc.2, if_neg h1, if_neg h1]
  · rw [ram_setWord, h0, if_neg fun hc => hne hc.1, h.table i hi]

/-- With it only the translations through index 0 change: the first 4 MiB and the page of
the window that shows the boot table there. -/
theorem pages_clear (h : Tables img first m) {v : ℕ} (hv : v ∈ allPages) (hlow : 1024 ≤ v)
    (hwin : v ≠ 0xFFC00) : (m.setWord img.bootPageDirectory 0).pages v = m.pages v := by
  obtain ⟨h0, h0'⟩ := img.directory_word (by decide : 0 < 1024)
  rw [Nat.zero_mul, Nat.add_zero] at h0 h0'
  have hlt : v < 0x100000 := hv
  have hfit := img.directory_lt
  have hne : v / 1024 ≠ 0 := by omega
  have hdir := h.dir (v / 1024) (by omega)
  rw [if_neg hne] at hdir
  simp only [pages, cr3_setWord, ram_setWord, h.cr3, h0, h0', hne, and_false, if_false, hdir]
  by_cases h768 : v / 1024 = 768
  · have hfr : frameOf (img.table * 4096 ||| 3) = img.table :=
      frameOf_frame (by unfold Image.table; omega)
    have htd : ¬ img.table = img.directory := by unfold Image.table; omega
    simp only [bootDirectory, h768, if_true, hfr, htd, false_and, if_false]
  · by_cases h1023 : v / 1024 = 1023
    · have hix : ¬ v % 1024 = 0 := by omega
      simp only [hix, and_false, if_false]
    · have habs : ¬ Present 0 := by decide
      simp only [bootDirectory, h768, h1023, if_false, habs, false_and]

end Tables

/-- The pages whose translation does not hang on the entry at index 0. -/
def rest : Set ℕ := {v | 1024 ≤ v ∧ v < 0x100000 ∧ v ≠ 0xFFC00}

/-- `jmp eax` leaves the identity map. -/
theorem jump_runs (hp : m.paging = true) (he : m.eip = img.loader + 80)
    (h : Tables img (img.table * 4096 ||| 3) m) :
    ∃ m', Reach img allPages m allPages m' ∧ m'.paging = true ∧ m'.eip = virt (img.loader + 88) ∧
      m'.reg .ebp = m.reg .ebp ∧ m'.reg .ebx = m.reg .ebx ∧ m'.cr3 = m.cr3 ∧ m'.ram = m.ram := by
  have hfirst : m.ram img.directory 0 = img.table * 4096 ||| 3 := by
    rw [h.dir 0 (by decide), if_pos rfl]
  have hlow : Shows allPages 0 m := by
    have hshow := h.shows (P := allPages) hfirst fun j hj => by
      change 1024 * 0 + j < 0x100000
      omega
    rwa [Nat.zero_mul] at hshow
  let m₁ := (m.next 6).setReg .eax (virt (img.loader + 88))
  let m₂ : Machine := { m₁.next 2 with eip := virt (img.loader + 88) }
  have hlow₁ : Shows allPages 0 m₁ := hlow.congr rfl
  have he₁ : m₁.eip = 0 + (img.loader + 86) := by
    rw [eip_setReg, eip_next, he]
    omega
  have r₁ : Reach img allPages m allPages m₁ :=
    hlow.reach_plain hp (by omega) (rfl : instrAt (listing img) 80 = _) (by decide) (by decide) rfl
      fun _ => rfl
  have r₂ : Reach img allPages m₁ allPages m₂ :=
    hlow₁.reach_plain hp he₁ (rfl : instrAt (listing img) 86 = _) (by decide) (by decide) rfl
      fun _ => by simp [exec, m₁, m₂, setReg, next]
  refine ⟨m₂, r₁.trans r₂, hp, rfl, ?_, ?_, rfl, rfl⟩
  · simp [m₂, m₁, reg_setReg_of_ne]
  · simp [m₂, m₁, reg_setReg_of_ne]

theorem mem_allPages_upper (v : ℕ) (_ : 0xC0000 ≤ v) (hv : v < 0xC0400) : v ∈ allPages := by
  change v < 0x100000
  omega

/-- In the upper half the identity map is removed and every old translation flushed. -/
theorem higher_half_runs (hp : m.paging = true) (he : m.eip = virt (img.loader + 88))
    (h : Tables img (img.table * 4096 ||| 3) m) :
    ∃ m', Reach img allPages m allPages m' ∧ m'.paging = true ∧ m'.interrupts = false ∧
      m'.eip = virt (img.loader + 110) ∧ m'.reg .esp = virt img.kernelStack + kernelStackSize ∧
      m'.reg .ebp = m.reg .ebp ∧ m'.reg .ebx = m.reg .ebx ∧
      m'.ram = (m.setWord img.bootPageDirectory 0).ram ∧ Tables img 0 m' := by
  have hrest : ∀ v, 0xC0000 ≤ v → v < 0xC0400 → v ∈ rest := fun v h1 h2 => ⟨by omega, by omega, by omega⟩
  have hbehind := img.behind
  have hfits := img.fits
  unfold virt at he
  let m₁ : Machine := { m.next 1 with interrupts := false }
  let m₂ := (m₁.next 5).setReg .esp (virt img.kernelStack + kernelStackSize)
  let m₃ := (m₂.next 10).setWord img.bootPageDirectory 0
  let m₄ := (m₃.next 3).setReg .eax m.cr3
  let m₅ := (m₄.next 3).setCr3 m.cr3
  have hs : Shows allPages kernelVirtualBase m := h.upper mem_allPages_upper
  have hs₁ : Shows allPages kernelVirtualBase m₁ := hs.congr rfl
  have hs₂ : Shows allPages kernelVirtualBase m₂ := hs.congr rfl
  have ht₂ : Tables img (img.table * 4096 ||| 3) (m₂.next 10) := ⟨h.cr3, h.dir, h.table⟩
  have ht₃ : Tables img 0 m₃ := ht₂.clear
  have hs₃ : Shows rest kernelVirtualBase m₃ := ht₃.upper hrest
  have hs₄ : Shows rest kernelVirtualBase m₄ := hs₃.congr rfl
  have r₁ : Reach img allPages m allPages m₁ :=
    hs.reach_plain hp (by omega) (rfl : instrAt (listing img) 88 = _) (by decide) (by decide) rfl
      fun _ => rfl
  have r₂ : Reach img allPages m₁ allPages m₂ :=
    hs₁.reach_plain hp (by simp only [m₁, eip_next]; omega) (rfl : instrAt (listing img) 89 = _)
      (by decide) (by decide) rfl fun _ => rfl
  have r₃ : Reach img allPages m₂ rest m₃ := by
    apply hs₂.reach hp (by simp only [m₂, m₁, eip_setReg, eip_next]; omega)
      (rfl : instrAt (listing img) 94 = _) (by decide) (by decide)
    intro tlb hc
    have haddr : virt img.bootPageDirectory + 0 = kernelVirtualBase + img.bootPageDirectory := by
      unfold virt
      omega
    have hlt : img.bootPageDirectory < 0x400000 := by unfold Image.bootPageDirectory; omega
    have hs' : Shows allPages kernelVirtualBase ({ m₂ with tlb := tlb }.next 10) := hs.congr rfl
    obtain ⟨tlb', hc', hst⟩ := hs'.storeWord hp hc hlt 0
    have hsub : rest ⊆ allPages := fun v hv => hv.2.1
    refine ⟨tlb', (hc'.subset hsub).congr fun v hv => ht₂.pages_clear (hsub hv) hv.1 hv.2.2, ?_⟩
    rw [exec, haddr, hst]
    rfl
  have r₄ : Reach img rest m₃ rest m₄ :=
    hs₃.reach_plain hp (by simp only [m₃, m₂, m₁, eip_setWord, eip_setReg, eip_next]; omega)
      (rfl : instrAt (listing img) 104 = _) (by decide) (by decide) rfl fun _ => rfl
  have r₅ : Reach img rest m₄ allPages m₅ := by
    apply hs₄.reach hp (by simp only [m₄, m₃, m₂, m₁, eip_setWord, eip_setReg, eip_next]; omega)
      (rfl : instrAt (listing img) 107 = _) (by decide) (by decide)
    intro tlb _
    refine ⟨fun _ => none, .empty, ?_⟩
    simp [exec, m₄, m₅, setReg, setCr3, next]
  refine ⟨m₅, (((r₁.trans r₂).trans r₃).trans r₄).trans r₅, hp, rfl, ?_, ?_, ?_, ?_, rfl,
    ⟨h.cr3, ht₃.dir, ht₃.table⟩⟩
  · simp only [m₅, m₄, m₃, m₂, m₁, setCr3, eip_setWord, eip_setReg, eip_next, virt]
    omega
  · simp [m₅, m₄, m₃, m₂, reg_setReg_of_ne]
  · simp [m₅, m₄, m₃, m₂, m₁, reg_setReg_of_ne]
  · simp [m₅, m₄, m₃, m₂, m₁, reg_setReg_of_ne]

/-- Where word `j` of the kernel stack lies. -/
theorem Image.stack_word (img : Image) {j : ℕ} (hj : j < 1024) :
    (img.kernelStack + 4 * j) / 4096 = img.stack ∧ (img.kernelStack + 4 * j) % 4096 / 4 = j ∧
      img.kernelStack + 4 * j < 0x400000 := by
  have := img.aligned
  have := img.fits
  unfold kernelStack stack directory
  omega

theorem Image.stack_apart (img : Image) : img.stack ≠ img.directory ∧ img.stack ≠ img.table := by
  unfold stack table
  omega

theorem Tables.shift (h : Tables img first m) (hram : m'.ram = m.ram) (hcr3 : m'.cr3 = m.cr3) :
    Tables img first m' :=
  ⟨hcr3.symm ▸ h.cr3, hram.symm ▸ h.dir, hram.symm ▸ h.table⟩

/-- The machine after the push that goes on at `e`. -/
def pushTo (img : Image) (m : Machine) (j value e : ℕ) : Machine :=
  let m := (m.setWord (img.kernelStack + 4 * j) value).setReg .esp (virt img.kernelStack + 4 * j)
  { m with eip := e }

theorem pushTo_next (img : Image) (m : Machine) (tlb tlb' : Cache ℕ (ℕ × ℕ)) (n j value e : ℕ) :
    { pushTo img ({ m with tlb := tlb }.next n) j value e with tlb := tlb' } =
      { pushTo img m j value e with tlb := tlb' } := rfl

theorem jump_pushTo (img : Image) (m : Machine) (tlb : Cache ℕ (ℕ × ℕ)) (j value e disp : ℕ) :
    jump { pushTo img m j value e with tlb := tlb } disp =
      { pushTo img m j value ((e + disp) % 2 ^ 32) with tlb := tlb } := rfl

theorem pages_pushTo (img : Image) (m : Machine) (j value e : ℕ) :
    (pushTo img m j value e).pages = (m.setWord (img.kernelStack + 4 * j) value).pages := rfl

/-- A word is stored in the kernel stack. -/
theorem Tables.push (h : Tables img 0 m) (hp : m.paging = true) {j : ℕ} (hj : j < 1024)
    (hesp : m.reg .esp = virt img.kernelStack + 4 * (j + 1)) (value : ℕ)
    (hc : CoherentOn allPages m.tlb m.pages) :
    ∃ tlb, CoherentOn allPages tlb (m.setWord (img.kernelStack + 4 * j) value).pages ∧
      m.push value = .ok { pushTo img m j value m.eip with tlb := tlb } := by
  obtain ⟨hf, -, hlt⟩ := img.stack_word hj
  obtain ⟨hdir, htab⟩ := img.stack_apart
  rw [← hf] at hdir htab
  have haddr : kernelVirtualBase + (img.kernelStack + 4 * j) = virt img.kernelStack + 4 * j := by
    unfold virt
    omega
  have hesp' : (m.reg .esp + 2 ^ 32 - 4) % 2 ^ 32 = kernelVirtualBase + (img.kernelStack + 4 * j) := by
    rw [hesp]
    unfold virt kernelVirtualBase
    omega
  obtain ⟨tlb, htlb, hpush⟩ := (h.upper mem_allPages_upper).push hp hc hlt hesp' value
  rw [haddr] at hpush
  exact ⟨tlb, htlb.congr fun v hv => h.pages_setWord hdir htab value hv, hpush⟩

/-- `m'` is `m` with word `j` of the kernel stack pushed. -/
structure Pushed (img : Image) (m : Machine) (j value : ℕ) (m' : Machine) : Prop where
  tables : Tables img 0 m'
  paging : m'.paging = true
  interrupts : m'.interrupts = m.interrupts
  esp : m'.reg .esp = virt img.kernelStack + 4 * j
  reg : ∀ q, q ≠ .esp → m'.reg q = m.reg q
  ram : ∀ f i, m'.ram f i = if f = img.stack ∧ i = j then value else m.ram f i

theorem Tables.pushed (h : Tables img 0 m) (hp : m.paging = true) {j : ℕ} (hj : j < 1024)
    (value e : ℕ) : Pushed img m j value (pushTo img m j value e) := by
  obtain ⟨hf, hi, -⟩ := img.stack_word hj
  obtain ⟨hdir, htab⟩ := img.stack_apart
  rw [← hf] at hdir htab
  refine ⟨(h.setWord hdir htab value).shift rfl rfl, hp, rfl, ?_, fun q hq => ?_, fun f i => ?_⟩
  · simp [pushTo]
  · simp [pushTo, reg_setReg_of_ne _ _ _ hq]
  · simp only [pushTo, ram_setReg, ram_setWord, hf, hi]

/-- `push` -/
theorem Tables.push_reach (h : Tables img 0 m) (hp : m.paging = true) {j : ℕ} (hj : j < 1024)
    (he : m.eip = kernelVirtualBase + (img.loader + offset))
    (hi : instrAt (listing img) offset = some (.push r, 1)) (hlen : offset + 1 ≤ 120)
    (hesp : m.reg .esp = virt img.kernelStack + 4 * (j + 1)) :
    ∃ m', Reach img allPages m allPages m' ∧ m'.eip = m.eip + 1 ∧ Pushed img m j (m.reg r) m' := by
  refine ⟨pushTo img m j (m.reg r) (m.eip + 1), ?_, rfl, h.pushed hp hj _ _⟩
  apply (h.upper mem_allPages_upper).reach hp he hi hlen Nat.one_pos
  intro tlb hc
  have h' : Tables img 0 ({ m with tlb := tlb }.next 1) := h.shift rfl rfl
  obtain ⟨tlb', hc', hpush⟩ := h'.push hp hj hesp (m.reg r) hc
  refine ⟨tlb', ?_, ?_⟩
  · rw [pages_pushTo]
    exact hc'
  · rw [pushTo_next] at hpush
    exact hpush

theorem jump_to {e k : ℕ} (he : e ≤ 2 ^ 32) (hk : k < 2 ^ 32) : (e + (k + 2 ^ 32 - e) % 2 ^ 32) % 2 ^ 32 = k := by
  omega

/-- `call kmain` -/
theorem Tables.call_reach (h : Tables img 0 m) (hp : m.paging = true)
    (he : m.eip = kernelVirtualBase + (img.loader + 112))
    (hesp : m.reg .esp = virt img.kernelStack + 4 * 1022) :
    ∃ m', Reach img allPages m allPages m' ∧ m'.eip = virt img.kmain ∧
      Pushed img m 1021 (virt (img.loader + 117)) m' := by
  have hload := img.loader_lt
  have hkmain := img.kmainFits
  have hret : m.eip + 5 = virt (img.loader + 117) := by
    rw [he]
    unfold virt
    omega
  have htarget : (virt (img.loader + 117) + (virt img.kmain + 2 ^ 32 - virt (img.loader + 117)) % 2 ^ 32) %
      2 ^ 32 = virt img.kmain :=
    jump_to (by unfold virt kernelVirtualBase; omega) (by unfold virt kernelVirtualBase; omega)
  refine ⟨pushTo img m 1021 (virt (img.loader + 117)) (virt img.kmain), ?_, rfl,
    h.pushed hp (by decide) _ _⟩
  apply (h.upper mem_allPages_upper).reach hp he
    (by simp [listing, instrAt] : instrAt (listing img) 112 =
      some (.call ((virt img.kmain + 2 ^ 32 - virt (img.loader + 117)) % 2 ^ 32), 5))
    (by decide) (by decide)
  intro tlb hc
  have h' : Tables img 0 ({ m with tlb := tlb }.next 5) := h.shift rfl rfl
  obtain ⟨tlb', hc', hpush⟩ := h'.push hp (by decide : 1021 < 1024) hesp (virt (img.loader + 117)) hc
  have heip : ({ m with tlb := tlb }.next 5).eip = virt (img.loader + 117) := hret
  refine ⟨tlb', ?_, ?_⟩
  · rw [pages_pushTo]
    exact hc'
  · rw [pushTo_next, heip] at hpush
    rw [exec, heip, hpush, Outcome.ok_bind, Outcome.pure_eq_ok, jump_pushTo, htarget]

end Upper

section Results

variable {img : Image} {m : Machine}

/-- The memory `kmain` finds, the two tables apart: three words more on the kernel stack. -/
def handedRam (img : Image) (m : Machine) (f i : ℕ) : ℕ :=
  if f = img.stack ∧ i = 1021 then virt (img.loader + 117)
  else if f = img.stack ∧ i = 1022 then m.reg .ebx
  else if f = img.stack ∧ i = 1023 then m.reg .eax
  else m.ram f i

/-- The whole run, in terms of the machine. -/
theorem loader_runs (hp : m.paging = false) (he : m.eip = img.loader)
    (hbss : ∀ d < 1024, m.ram img.directory d = 0) :
    ∃ m', ReflTransGen (Step img) m m' ∧ m'.eip = virt img.kmain ∧ m'.interrupts = false ∧
      m'.paging = true ∧ m'.reg .esp = virt img.kernelStack + 4 * 1021 ∧ Tables img 0 m' ∧
      CoherentOn allPages m'.tlb m'.pages ∧
      ∀ f, f ≠ img.directory → f ≠ img.table → ∀ i, m'.ram f i = handedRam img m f i := by
  obtain ⟨m₁, run₁, hp₁, he₁, h₁⟩ := prelude_runs hp he
  obtain ⟨m₂, run₂, hp₂, he₂, h₂⟩ := fill_runs hp₁ he₁ h₁ (le_refl 1024)
  obtain ⟨m₃, run₃, hp₃, he₃, htlb, h₃, hkept⟩ := enable_runs hp₂ he₂ h₂ hbss
  obtain ⟨m₄, run₄, hp₄, he₄, hebp₄, hebx₄, hcr₄, hram₄⟩ := jump_runs hp₃ he₃ h₃
  obtain ⟨m₅, run₅, hp₅, hi₅, he₅, hesp₅, hebp₅, hebx₅, hram₅, h₅⟩ :=
    higher_half_runs hp₄ he₄ (h₃.shift hram₄ hcr₄)
  have he₅' : m₅.eip = kernelVirtualBase + (img.loader + 110) := by
    rw [he₅]
    unfold virt
    omega
  obtain ⟨m₆, run₆, he₆, p₆⟩ := h₅.push_reach hp₅ (by decide : 1023 < 1024) he₅'
    (by simp [listing, instrAt] : instrAt (listing img) 110 = some (.push .ebp, 1)) (by decide) hesp₅
  obtain ⟨m₇, run₇, he₇, p₇⟩ := p₆.tables.push_reach p₆.paging (by decide : 1022 < 1024)
    (by rw [he₆, he₅']; omega)
    (by simp [listing, instrAt] : instrAt (listing img) 111 = some (.push .ebx, 1)) (by decide) p₆.esp
  obtain ⟨m₈, run₈, he₈, p₈⟩ := p₇.tables.call_reach p₇.paging (by rw [he₇, he₆, he₅']; omega) p₇.esp
  obtain ⟨tlb, hc, run⟩ := ((((run₄.trans run₅).trans run₆).trans run₇).trans run₈) (fun _ => none) .empty
  rw [← htlb] at run
  refine ⟨_, ((run₁.trans run₂).trans run₃).trans run, he₈, ?_, p₈.paging, p₈.esp,
    p₈.tables.shift rfl rfl, hc, fun f hdir htab i => ?_⟩
  · change m₈.interrupts = false
    rw [p₈.interrupts, p₇.interrupts, p₆.interrupts, hi₅]
  · have hclear : (m₄.setWord img.bootPageDirectory 0).ram f i = m.ram f i := by
      have h0 : img.bootPageDirectory / 4096 = img.directory := rfl
      rw [ram_setWord, h0, if_neg fun hc => hdir hc.1, hram₄, hkept.ram f hdir htab]
    change m₈.ram f i = _
    rw [p₈.ram, p₇.ram, p₆.ram, hram₅, hclear, p₆.reg .ebx (by decide), hebx₅, hebx₄, hkept.ebx, hebp₅,
      hebp₄, hkept.ebp, handedRam]

/-- The MMU of the machine is the one of the paging code. -/
theorem pages_eq_of_ram {m : Machine} {s : PagingState} (hcr3 : frameOf m.cr3 = s.cr3)
    (hram : ∀ f, ∀ i < 1024, m.ram f i = s.phys f i) {v : ℕ} (hv : v ∈ allPages) :
    s.pages v = m.pages v := by
  have hd : v / 1024 < 1024 := by
    have : v < 0x100000 := hv
    omega
  have ht : v % 1024 < 1024 := Nat.mod_lt _ (by decide)
  rw [pages, hcr3, hram _ _ hd, hram _ _ ht]
  rfl

theorem Tables.ram_eq {m' : Machine} (h : Tables img 0 m') {ram : ℕ → ℕ → ℕ} {pmm : Pmm.PmmState}
    (hother : ∀ f, f ≠ img.directory → f ≠ img.table → ∀ i, m'.ram f i = ram f i) (f : ℕ) {i : ℕ}
    (hi : i < 1024) : m'.ram f i = (bootState img.directory img.table ram pmm).phys f i := by
  have hne : img.table ≠ img.directory := by unfold Image.table; omega
  by_cases hd : f = img.directory
  · subst hd
    have hzero : bootDirectory img.directory img.table 0 = 0 := rfl
    rw [h.dir i hi]
    simp only [bootState, if_true]
    split_ifs with h0
    · rw [h0, hzero]
    · rfl
  · by_cases ht : f = img.table
    · subst ht
      simp only [bootState, if_neg hne, if_true, h.table i hi]
    · simp only [bootState, if_neg hd, if_neg ht, hother f hd ht]

theorem Tables.pages_none {m' : Machine} (h : Tables img 0 m') {v : ℕ} (hv : v < 0xC0000) :
    m'.pages v = none := by
  have habs : ¬ Present 0 := by decide
  have hentry : m'.ram img.directory (v / 1024) = 0 := by
    have h768 : v / 1024 ≠ 768 := by omega
    have h1023 : v / 1024 ≠ 1023 := by omega
    rw [h.dir _ (by omega), bootDirectory, if_neg h768, if_neg h1023, ite_self]
  simp only [pages, h.cr3, hentry]
  rw [if_neg fun hc => habs hc.1]

theorem page_virt (a : ℕ) : page (virt a) = 1024 * 768 + a / 4096 := by
  rw [page_eq_div]
  unfold virt kernelVirtualBase
  omega

/-- From the state a multiboot loader leaves, every instruction of `loader.s` is mapped
when it is fetched, and `kmain` starts in the boot directory the paging code counts on:
the image in the upper half, the two arguments on the kernel stack, and below the upper
half nothing mapped, not even by an old translation. -/
theorem loader_reaches_kmain (img : Image) (m : Machine) (hp : m.paging = false)
    (he : m.eip = img.loader) (hbss : ∀ i < 1024, m.ram img.directory i = 0) :
    ∃ m', ReflTransGen (Step img) m m' ∧ m'.eip = virt img.kmain ∧ m'.interrupts = false ∧
      m'.paging = true ∧
      (∀ va < kernelVirtualBase, lookup m'.tlb m'.pages (page va) = none) ∧
      ∀ pmm, let s := bootState img.directory img.table (handedRam img m) pmm
        frameOf m'.cr3 = s.cr3 ∧ (∀ f, ∀ i < 1024, m'.ram f i = s.phys f i) ∧
        CoherentOn allPages m'.tlb s.pages ∧
        (∀ a < 0x400000, Paging.translate s (virt a) = .ok (a / 4096)) ∧
        vread s (m'.reg .esp + 4) = .ok (m.reg .ebx) ∧
        vread s (m'.reg .esp + 8) = .ok (m.reg .eax) := by
  obtain ⟨m', hrun, heip, hint, hpag, hesp, htab, hc, hother⟩ := loader_runs hp he hbss
  refine ⟨m', hrun, heip, hint, hpag, fun va hva => ?_, fun pmm => ?_⟩
  · have hlt : page va < 0xC0000 := by
      rw [page_eq_div]
      unfold kernelVirtualBase at hva
      omega
    have hmem : page va ∈ allPages := by
      change page va < 0x100000
      omega
    rw [hc.lookup_eq hmem, htab.pages_none hlt]
  · intro s
    have hram : ∀ f, ∀ i < 1024, m'.ram f i = s.phys f i := fun f i hi => htab.ram_eq hother f hi
    have hpages : ∀ v ∈ allPages, s.pages v = m'.pages v := fun v hv =>
      pages_eq_of_ram htab.cr3 hram hv
    have htr : ∀ a < 0x400000, Paging.translate s (virt a) = .ok (a / 4096) := by
      intro a ha
      have hmem : page (virt a) ∈ allPages := by
        change page (virt a) < 0x100000
        rw [page_virt]
        omega
      have hwalk : walk s (virt a) = some (img.table * 4096 ||| 3, a / 4096 * 4096 ||| 3) := by
        rw [← pages_page, hpages _ hmem, page_virt]
        exact htab.pages_eq htab.kernel (by omega)
      rw [translate_eq, hwalk]
      simp only
      rw [frameOf_frame (by omega)]
    have hstack : ∀ j < 1024, vread s (virt img.kernelStack + 4 * j) = .ok (s.phys img.stack j) := by
      intro j hj
      obtain ⟨hf, hi, hlt⟩ := img.stack_word hj
      have haddr : virt img.kernelStack + 4 * j = virt (img.kernelStack + 4 * j) := by
        unfold virt
        omega
      have hix : virt (img.kernelStack + 4 * j) % 4096 / 4 = j := by
        unfold virt kernelVirtualBase
        omega
      rw [haddr, vread, htr _ hlt, Outcome.ok_bind, hf, hix]
      rfl
    obtain ⟨hdir, htable⟩ := img.stack_apart
    have harg : ∀ j < 1024, s.phys img.stack j = handedRam img m img.stack j := fun j hj => by
      rw [← hram _ j hj, hother _ hdir htable]
    refine ⟨htab.cr3, hram, hc.congr hpages, htr, ?_, ?_⟩
    · have h1022 := hstack 1022 (by decide)
      rw [harg 1022 (by decide), handedRam, if_neg (by simp), if_pos (by simp)] at h1022
      rw [hesp]
      exact h1022
    · have h1023 := hstack 1023 (by decide)
      rw [harg 1023 (by decide), handedRam, if_neg (by simp), if_neg (by simp), if_pos (by simp)] at h1023
      rw [hesp]
      exact h1023

def sampleImage : Image where
  loader := 0x10000C
  bss := 0x104000
  kmain := 0x101000
  aligned := by decide
  behind := by decide
  fits := by decide
  kmainFits := by decide

/-- The machine at `loader`: protected mode, the magic number and the boot information. -/
def sampleMachine : Machine where
  reg r := if r = .eax then 0x2BADB002 else if r = .ebx then 0x9500 else 0
  eip := 0x10000C
  interrupts := false
  cr0 := 0x11
  cr3 := 0
  ram := fun _ _ => 0
  tlb := fun _ => none

theorem loader_reaches_kmain_sample :
    ∃ m', ReflTransGen (Step sampleImage) sampleMachine m' ∧ m'.eip = 0xC0101000 ∧
      lookup m'.tlb m'.pages (page 0x10000C) = none := by
  obtain ⟨m', hrun, heip, -, -, hnone, -⟩ :=
    loader_reaches_kmain sampleImage sampleMachine (by decide) rfl fun _ _ => rfl
  exact ⟨m', hrun, heip, hnone _ (by decide)⟩

end Results
end KallarOS.Loader
