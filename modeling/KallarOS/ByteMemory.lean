import Mathlib

namespace KallarOS.ByteMemory

/-- A flat little-endian byte memory. -/
abbrev Mem := ℕ → UInt8

def read32 (m : Mem) (a : ℕ) : ℕ :=
  (m a).toNat + 2 ^ 8 * (m (a + 1)).toNat + 2 ^ 16 * (m (a + 2)).toNat + 2 ^ 24 * (m (a + 3)).toNat

def read64 (m : Mem) (a : ℕ) : ℕ := read32 m a + 2 ^ 32 * read32 m (a + 4)

/-- Byte `k` of a word. -/
def byteOf (v k : ℕ) : UInt8 := UInt8.ofNat (v / 2 ^ (8 * k))

def write32 (m : Mem) (a v : ℕ) : Mem := fun i =>
  if a ≤ i ∧ i < a + 4 then byteOf v (i - a) else m i

theorem read32_lt (m : Mem) (a : ℕ) : read32 m a < 2 ^ 32 := by
  have h0 := (m a).toNat_lt
  have h1 := (m (a + 1)).toNat_lt
  have h2 := (m (a + 2)).toNat_lt
  have h3 := (m (a + 3)).toNat_lt
  unfold read32
  omega

theorem read64_lt (m : Mem) (a : ℕ) : read64 m a < 2 ^ 64 := by
  have h0 := read32_lt m a
  have h1 := read32_lt m (a + 4)
  unfold read64
  omega

theorem read32_write32_self (m : Mem) (a : ℕ) {v : ℕ} (hv : v < 2 ^ 32) :
    read32 (write32 m a v) a = v := by
  have e1 : a + 1 - a = 1 := by omega
  have e2 : a + 2 - a = 2 := by omega
  have e3 : a + 3 - a = 3 := by omega
  simp only [read32, write32, byteOf, le_refl, Nat.le_add_right, true_and, Nat.lt_add_right_iff_pos,
    Nat.add_lt_add_iff_left, Nat.one_lt_ofNat, Nat.reduceLT, if_true, Nat.sub_self, e1, e2, e3,
    UInt8.toNat_ofNat']
  norm_num
  omega

/-- A store leaves every disjoint word alone. -/
theorem read32_write32_disjoint (m : Mem) {a b : ℕ} (v : ℕ) (h : a + 4 ≤ b ∨ b + 4 ≤ a) :
    read32 (write32 m a v) b = read32 m b := by
  have hb : ∀ k < 4, write32 m a v (b + k) = m (b + k) := by
    intro k hk
    exact if_neg (by omega)
  have h0 := hb 0 (by omega)
  rw [Nat.add_zero] at h0
  simp only [read32, h0, hb 1 (by omega), hb 2 (by omega), hb 3 (by omega)]

theorem write32_apply_disjoint (m : Mem) {a i : ℕ} (v : ℕ) (h : i < a ∨ a + 4 ≤ i) :
    write32 m a v i = m i := if_neg (by omega)

/-- A word depends only on its four bytes. -/
theorem read32_congr {m m' : Mem} {a : ℕ} (h : ∀ i, a ≤ i → i < a + 4 → m i = m' i) :
    read32 m a = read32 m' a := by
  simp only [read32, h a (by omega) (by omega), h (a + 1) (by omega) (by omega),
    h (a + 2) (by omega) (by omega), h (a + 3) (by omega) (by omega)]

end KallarOS.ByteMemory
