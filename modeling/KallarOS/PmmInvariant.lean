import KallarOS.PmmRuns

namespace KallarOS.Pmm
open ByteMemory

section Halting

/-- A routine whose state is still there after a panic. -/
abbrev Halting := EStateM Stop PmmState

namespace Halting

def bitmapCheck (bit : ℕ) : Halting Bool := fun p =>
  match Pmm.bitmapCheck p bit with
  | .ok used => .ok used p
  | .error stop => .error stop p

def bitmapClear (bit : ℕ) : Halting Unit := fun p =>
  match Pmm.bitmapClear p bit with
  | .ok p => .ok () p
  | .error stop => .error stop p

/-- `pmm_free_frame` with the state in which it panics. -/
def pmmFreeFrame (physicalAddr : ℕ) : Halting Unit := do
  let frameIndex := physicalAddr / 4096
  if (← get).maxBlocks ≤ frameIndex then
    return ()
  let used ← bitmapCheck frameIndex
  if used then
    bitmapClear frameIndex
    modify fun p => { p with usedBlocks := dec32 p.usedBlocks }
  else
    throw (.panic "Double free")

/-- Forget the state after a panic. -/
def outcome (x : Halting Unit) (p : PmmState) : Outcome PmmState :=
  match x p with
  | .ok _ p => .ok p
  | .error stop _ => .error stop

end Halting

variable (p : PmmState) (a : ℕ)

theorem halting_freeFrame_eq : Halting.pmmFreeFrame a p =
    if p.maxBlocks ≤ a / 4096 then .ok () p
    else if p.bit (a / 4096) then .ok () (p.release (a / 4096))
    else .error (.panic "Double free") p := by
  by_cases h : p.maxBlocks ≤ a / 4096
  · rw [if_pos h]
    simp only [Halting.pmmFreeFrame, bind, EStateM.bind, get, getThe, MonadStateOf.get, EStateM.get,
      h, if_true, pure, EStateM.pure]
  · have hb : a / 4096 < p.maxBlocks := by omega
    have hcheck : Halting.bitmapCheck (a / 4096) p = .ok (p.bit (a / 4096)) p := by
      rw [Halting.bitmapCheck, bitmapCheck_ok hb]
    have hclear : Halting.bitmapClear (a / 4096) p = .ok () (p.clearBit (a / 4096)) := by
      rw [Halting.bitmapClear, bitmapClear_ok hb]
    rw [if_neg h]
    simp only [Halting.pmmFreeFrame, bind, EStateM.bind, get, getThe, MonadStateOf.get, EStateM.get,
      h, if_false, hcheck]
    by_cases hu : p.bit (a / 4096) = true
    · simp only [hu, if_true, EStateM.bind, hclear]
      rfl
    · simp only [hu]
      rfl

theorem outcome_freeFrame : Halting.outcome (Halting.pmmFreeFrame a) p = pmmFreeFrame p a := by
  rw [Halting.outcome, halting_freeFrame_eq, pmmFreeFrame_eq]
  split_ifs <;> rfl

end Halting

section Invariant

/-- A call with whatever address. -/
inductive Call where
  | allocFrame
  | freeFrame (physicalAddr : ℕ)
  | markUsed (physicalAddr : ℕ)

def Call.exec (p : PmmState) : Call → Outcome PmmState
  | .allocFrame => do
    let (_, p) ← pmmAllocFrame p
    return p
  | .freeFrame physicalAddr => pmmFreeFrame p physicalAddr
  | .markUsed physicalAddr => pmmMarkUsed p physicalAddr

/-- A call with 32-bit arguments that returns. -/
def CallStep (p p' : PmmState) : Prop :=
  ∃ c : Call, (∀ a, c = .freeFrame a ∨ c = .markUsed a → a < 2 ^ 32) ∧ c.exec p = .ok p'

/-- The counter counts the used frames, the bits behind the last frame are set, and
the hint of the allocator is a frame. -/
structure PmmState.Consistent (p : PmmState) : Prop where
  counted : p.Counted
  padded : p.Padded
  last : p.lastAllocatedBit = 0 ∨ p.lastAllocatedBit < p.maxBlocks
  small : p.maxBlocks ≤ 2 ^ 20

namespace PmmState.Consistent

variable {p p' : PmmState} {a : ℕ}

theorem allot {b : ℕ} (h : p.Consistent) (hb : p.Free b) : (p.allotted b).Consistent where
  counted := by
    have := counted_take hb.1 hb.2 h.counted
    exact ⟨this.small, this.count⟩
  padded j hj hw := by
    rw [bit_allotted, h.padded j hj hw, Bool.or_true]
  last := .inr hb.1
  small := h.small

theorem allocFrame {addr : ℕ} (h : p.Consistent) (he : pmmAllocFrame p = .ok (addr, p')) :
    p'.Consistent := by
  rcases pmmAllocFrame_spec h.padded h.small with ⟨b, hb, hok⟩ | ⟨-, hok⟩
  · obtain ⟨-, rfl⟩ : b * 4096 = addr ∧ p.allotted b = p' := by simpa [hok] using he
    exact h.allot hb.free
  · obtain ⟨-, rfl⟩ : 0 = addr ∧ p = p' := by simpa [hok] using he
    exact h

theorem release (h : p.Consistent) {b : ℕ} (hlt : b < p.maxBlocks) (hu : p.bit b = true) :
    (p.release b).Consistent where
  counted := counted_release hlt hu h.counted
  padded j hj hw := by
    have hne : j ≠ b := by
      rw [maxBlocks_release] at hj
      omega
    rw [bit_release, h.padded j hj hw, decide_eq_false hne]
    rfl
  last := h.last
  small := h.small

theorem freeFrame (h : p.Consistent) (he : pmmFreeFrame p a = .ok p') : p'.Consistent := by
  rw [pmmFreeFrame_eq] at he
  split_ifs at he with hmax hu
  · cases he
    exact h
  · cases he
    exact h.release (by omega) hu

theorem markUsed (h : p.Consistent) (he : pmmMarkUsed p a = .ok p') : p'.Consistent := by
  obtain ⟨q, hq, hr⟩ := markUsed_rewrites p a
  cases hq.symm.trans he
  refine ⟨hr.counted h.counted, ?_, ?_, ?_⟩
  · intro j hj hw
    rw [PmmState.words, hr.maxBlocks] at hw
    rw [hr.maxBlocks] at hj
    rw [hr.bit, h.padded j hj hw, Bool.true_or]
  · rw [hr.last, hr.maxBlocks]
    exact h.last
  · rw [hr.maxBlocks]
    exact h.small

theorem step (h : p.Consistent) (hs : CallStep p p') : p'.Consistent := by
  obtain ⟨c, -, hc⟩ := hs
  cases c with
  | allocFrame =>
    obtain ⟨⟨addr, q⟩, hq, hret⟩ := Outcome.bind_eq_ok.mp hc
    cases hret
    exact h.allocFrame hq
  | freeFrame a => exact h.freeFrame hc
  | markUsed a => exact h.markUsed hc

theorem run (h : p.Consistent) (hr : Relation.ReflTransGen CallStep p p') : p'.Consistent := by
  induction hr with
  | refl => exact h
  | tail _ hs ih => exact ih.step hs

end PmmState.Consistent

theorem Initialized.consistent {l : Layout} {es : List MmapEntry} {p : PmmState}
    (ho : ∀ e ∈ es, e.Ordinary) (h : Initialized l es p) : p.Consistent where
  counted := h.counted
  padded := h.padded ho
  last := .inl h.last
  small := by
    rw [h.maxBlocks]
    exact (maxBlocksOf_lt es).le

/-- `pmm_free_frame` panics exactly on a frame of the bitmap whose bit is clear, and
leaves everything as it was. -/
theorem freeFrame_panics_iff (p : PmmState) (a : ℕ) :
    ((∃ stop, pmmFreeFrame p a = .error stop) ↔ a / 4096 < p.maxBlocks ∧ p.bit (a / 4096) = false) ∧
      ∀ stop q, Halting.pmmFreeFrame a p = .error stop q → stop = .panic "Double free" ∧ q = p := by
  rw [pmmFreeFrame_eq, halting_freeFrame_eq]
  refine ⟨?_, ?_⟩
  · split_ifs with hmax hu
    · simp
      omega
    · simp [hu]
    · simp only [Bool.not_eq_true] at hu
      simp only [hu, Except.error.injEq, exists_eq', and_true, true_iff]
      omega
  · intro stop q he
    split_ifs at he
    cases he
    exact ⟨rfl, rfl⟩

/-- From `pmm_init` on the counter, the padding bits and the hint stay right whatever
addresses are freed and marked, and a release panics only on a frame that is free. -/
theorem pmm_representation (l : Layout) (mem : Mem) (mbd : MultibootInfo) (es : List MmapEntry)
    (hm : MemoryMap mem mbd es) (ho : ∀ e ∈ es, e.Ordinary) :
    ∃ p₀, pmmInit l mem mbd = .ok p₀ ∧
      ∀ p, Relation.ReflTransGen CallStep p₀ p →
        p.usedBlocks = (Finset.filter (fun i => p.bit i = true) (Finset.range p.maxBlocks)).card ∧
        (∀ j, p.maxBlocks ≤ j → j < 32 * ((p.maxBlocks + 31) / 32) → p.bit j = true) ∧
        (p.lastAllocatedBit = 0 ∨ p.lastAllocatedBit < p.maxBlocks) ∧
        (∃ addr p', pmmAllocFrame p = .ok (addr, p')) ∧
        (∀ a < 2 ^ 32, ∃ p', pmmMarkUsed p a = .ok p') ∧
        ∀ a < 2 ^ 32,
          Halting.outcome (Halting.pmmFreeFrame a) p = pmmFreeFrame p a ∧
          ((∃ stop, pmmFreeFrame p a = .error stop) ↔
            a / 4096 < p.maxBlocks ∧ p.bit (a / 4096) = false) ∧
          ∀ stop q, Halting.pmmFreeFrame a p = .error stop q → stop = .panic "Double free" ∧
            q.array = p.array ∧ q.usedBlocks = p.usedBlocks := by
  obtain ⟨p₀, hp₀, hi⟩ := pmmInit_ok l hm ho
  refine ⟨p₀, hp₀, ?_⟩
  intro p hr
  have h := (hi.consistent ho).run hr
  refine ⟨h.counted.count, h.padded, h.last, ?_, ?_, ?_⟩
  · rcases pmmAllocFrame_spec h.padded h.small with ⟨b, -, hok⟩ | ⟨-, hok⟩
    · exact ⟨_, _, hok⟩
    · exact ⟨_, _, hok⟩
  · intro a _
    exact ⟨_, pmmMarkUsed_eq p a⟩
  · intro a _
    obtain ⟨hiff, hkeep⟩ := freeFrame_panics_iff p a
    refine ⟨outcome_freeFrame p a, hiff, ?_⟩
    intro stop q he
    obtain ⟨hstop, rfl⟩ := hkeep stop q he
    exact ⟨hstop, rfl, rfl⟩

/-- A frame is taken, given back and given back again. -/
theorem pmm_representation_sample :
    ∃ p₀ p₁ p₂ addr, pmmInit sampleLayout sampleMap ⟨0x1000, 24⟩ = .ok p₀ ∧
      pmmAllocFrame p₀ = .ok (addr, p₁) ∧ pmmFreeFrame p₁ addr = .ok p₂ ∧
      (p₂.usedBlocks = (Finset.filter (fun i => p₂.bit i = true) (Finset.range p₂.maxBlocks)).card ∧
        (p₂.lastAllocatedBit = 0 ∨ p₂.lastAllocatedBit < p₂.maxBlocks)) ∧
      ∃ stop, pmmFreeFrame p₂ addr = .error stop := by
  obtain ⟨p₀, hp₀, h⟩ := pmm_representation sampleLayout sampleMap ⟨0x1000, 24⟩ [sampleEntry]
    sampleMap_wellFormed sampleEntry_ordinary
  obtain ⟨p, b, hp, hmax, -, hb, halloc⟩ := sample_alloc
  cases hp.symm.trans hp₀
  have hdiv : b * 4096 / 4096 = b := Nat.mul_div_cancel _ (by decide)
  have hfree : pmmFreeFrame (p₀.allotted b) (b * 4096) = .ok ((p₀.allotted b).release b) := by
    rw [pmmFreeFrame_eq, hdiv, if_neg (by exact not_le.mpr hb), if_pos (by simp)]
  have hfirst : CallStep p₀ (p₀.allotted b) :=
    ⟨.allocFrame, by simp, by rw [Call.exec, halloc]; rfl⟩
  have hsecond : CallStep (p₀.allotted b) ((p₀.allotted b).release b) :=
    ⟨.freeFrame (b * 4096), by rintro a (ha | ha) <;> cases ha; omega, hfree⟩
  obtain ⟨hcount, -, hlast, -, -, hrelease⟩ := h _ ((Relation.ReflTransGen.single hfirst).tail hsecond)
  refine ⟨p₀, _, _, _, hp₀, halloc, hfree, ⟨hcount, hlast⟩, ?_⟩
  rw [(hrelease (b * 4096) (by omega)).2.1, hdiv]
  exact ⟨hb, by simp⟩

end Invariant

end KallarOS.Pmm
