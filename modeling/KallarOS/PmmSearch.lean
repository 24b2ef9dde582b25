import KallarOS.PmmRuns

namespace KallarOS.Pmm

section Divide

/-- `a % n` on the processor: a zero divisor raises exception 0, whose handler panics. -/
def remainder (a n : ℕ) : Outcome ℕ :=
  if n = 0 then .error (.panic "Unhandled Hardware Exception!") else .ok (a % n)

/-- The search loop with the division it makes in every round. -/
def dividingScan (p : PmmState) (arraySize startIndex : ℕ) (i : ℕ) : ℕ → Outcome (ℕ × PmmState)
  | 0 => .ok (0, p)
  | n + 1 => do
    let currentIndex ← remainder (startIndex + i) arraySize
    let bitChunk ← bitmapWord p currentIndex
    if bitChunk = 0xFFFFFFFF#32 then
      dividingScan p arraySize startIndex (i + 1) n
    else
      let freeBitOffset := (~~~bitChunk).ctz.toNat
      let bitIndex := currentIndex * 32 + freeBitOffset
      if p.maxBlocks ≤ bitIndex then
        .ok (0, p)
      else
        let p ← pmmMarkUsed p (bitIndex * 4096 % 2 ^ 32)
        return (bitIndex * 4096 % 2 ^ 32, { p with lastAllocatedBit := bitIndex })

theorem dividingScan_eq (p : PmmState) {arraySize : ℕ} (startIndex i n : ℕ)
    (hn : n ≤ arraySize) :
    dividingScan p arraySize startIndex i n = allocScan p arraySize startIndex i n := by
  induction n generalizing i with
  | zero => rfl
  | succ n ih =>
    have hne : arraySize ≠ 0 := by omega
    have hdiv : remainder (startIndex + i) arraySize = .ok ((startIndex + i) % arraySize) :=
      if_neg hne
    simp only [dividingScan, allocScan, hdiv, Outcome.ok_bind, ih (i + 1) (by omega)]

/-- The loop runs no round over an empty bitmap, so no round divides by zero. -/
theorem dividingScan_allocFrame (p : PmmState) :
    dividingScan p ((p.maxBlocks + 31) / 32) (p.lastAllocatedBit / 32) 0
      ((p.maxBlocks + 31) / 32) = pmmAllocFrame p :=
  dividingScan_eq p _ 0 _ le_rfl

end Divide

section Exact

variable {p : PmmState} {start b : ℕ}

theorem Found.ne_zero (h : Found p start b) (hzero : 0 < p.maxBlocks → p.bit 0 = true) :
    b ≠ 0 := by
  rintro rfl
  have hset := hzero h.free.1
  rw [h.free.2] at hset
  exact Bool.noConfusion hset

theorem usedBlocks_allotted : (p.allotted b).usedBlocks = inc32 p.usedBlocks := rfl

/-- `pmm_alloc_frame` fails only when no frame is free; else it hands out the lowest
free frame of the first bitmap word with one, searching from the last allocation on. -/
theorem alloc_frame_exact (p : PmmState) (hpad : p.Padded)
    (hmax : p.maxBlocks ≤ 2 ^ 20) (hzero : 0 < p.maxBlocks → p.bit 0 = true) :
    ∃ addr p', pmmAllocFrame p = .ok (addr, p') ∧
      dividingScan p ((p.maxBlocks + 31) / 32) (p.lastAllocatedBit / 32) 0
        ((p.maxBlocks + 31) / 32) = .ok (addr, p') ∧
      (addr = 0 ↔ ∀ f < p.maxBlocks, p.bit f = true) ∧
      (addr = 0 → p' = p) ∧
      (addr ≠ 0 → ∃ b k, addr = 4096 * b ∧ b < p.maxBlocks ∧
        k < p.words ∧ b / 32 = (p.lastAllocatedBit / 32 + k) % p.words ∧
        (∀ k' < k, ∀ f, f / 32 = (p.lastAllocatedBit / 32 + k') % p.words → p.bit f = true) ∧
        p.bit b = false ∧ (∀ f < b, f / 32 = b / 32 → p.bit f = true) ∧
        (∀ f, p'.bit f = if f = b then true else p.bit f) ∧
        p'.usedBlocks = inc32 p.usedBlocks ∧
        (p.usedBlocks ≤ p.maxBlocks → p'.usedBlocks = p.usedBlocks + 1) ∧
        p'.lastAllocatedBit = b ∧ p'.maxBlocks = p.maxBlocks) := by
  rw [dividingScan_allocFrame]
  rcases pmmAllocFrame_spec hpad hmax with ⟨b, hb, hok⟩ | ⟨hnone, hok⟩
  · obtain ⟨k, hk, hword, hfull⟩ := hb.first
    have hne := hb.ne_zero hzero
    refine ⟨b * 4096, p.allotted b, hok, hok, ⟨?_, ?_⟩, ?_, ?_⟩
    · intro h
      omega
    · intro hall
      have hset := hall b hb.free.1
      rw [hb.free.2] at hset
      exact Bool.noConfusion hset
    · intro h
      omega
    · intro _
      refine ⟨b, k, Nat.mul_comm _ _, hb.free.1, hk, hword, ?_, hb.free.2, ?_, ?_,
        usedBlocks_allotted, ?_, rfl, rfl⟩
      · intro k' hk' f hf
        have := full_iff.mp (hfull k' hk') (f % 32) (by omega)
        rwa [← hf, show 32 * (f / 32) + f % 32 = f by omega] at this
      · intro f hf hw
        exact hb.lowest f hw hf
      · intro f
        rw [PmmState.bit_allotted]
        by_cases hf : f = b
        · simp [hf]
        · simp [hf]
      · intro hu
        rw [usedBlocks_allotted, inc32]
        omega
  · refine ⟨0, p, hok, hok, ⟨?_, fun _ => rfl⟩, fun _ => rfl, fun h => absurd rfl h⟩
    intro _ f hf
    by_contra hfree
    exact hnone f ⟨hf, by simpa using hfree⟩

/-- Two words, of which the first is full and the second has its lowest bit clear. -/
def samplePmm : PmmState where
  array i := if i = 0 then 0xFFFFFFFF#32 else 0xFFFFFFFE#32
  maxBlocks := 40
  usedBlocks := 39
  lastAllocatedBit := 3

theorem samplePmm_padded : samplePmm.Padded := by
  intro j hj hw
  change 40 ≤ j at hj
  change j < 64 at hw
  interval_cases j <;> decide

theorem alloc_frame_exact_sample :
    ∃ addr p', pmmAllocFrame samplePmm = .ok (addr, p') ∧ addr ≠ 0 := by
  obtain ⟨addr, p', hok, -, hiff, -⟩ := alloc_frame_exact samplePmm samplePmm_padded
    (by decide) (fun _ => by decide)
  refine ⟨addr, p', hok, ?_⟩
  intro h
  exact absurd (hiff.mp h 32 (by decide)) (by decide)

end Exact

end KallarOS.Pmm
