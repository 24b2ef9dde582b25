import Mathlib

namespace KallarOS.Numerals

/-- The number that digits in base `b` stand for, the most significant digit first. -/
def value (b : ℕ) (ds : List ℕ) : ℕ := ds.foldl (fun v d => v * b + d) 0

/-- The digits `ds` are a numeral for `n`. -/
structure Denotes (b n : ℕ) (ds : List ℕ) : Prop where
  ne_nil : ds ≠ []
  lt : ∀ d ∈ ds, d < b
  value_eq : value b ds = n

/-- A numeral for `n` such that no other one has fewer digits. -/
structure Shortest (b n : ℕ) (ds : List ℕ) : Prop extends Denotes b n ds where
  length_le : ∀ es, Denotes b n es → ds.length ≤ es.length

/-- The usual numeral, with a digit for zero too. -/
def numeral (b n : ℕ) : List ℕ := if n = 0 then [0] else (Nat.digits b n).reverse

section Digits

variable {b n : ℕ} {ds : List ℕ}

theorem value_reverse (b : ℕ) (ds : List ℕ) : value b ds.reverse = Nat.ofDigits b ds := by
  rw [value, List.foldl_reverse, Nat.ofDigits_eq_foldr]
  congr 1
  funext d v
  rw [Nat.cast_id, Nat.mul_comm, Nat.add_comm]

theorem value_zero (b : ℕ) : value b [0] = 0 := by simp [value]

theorem numeral_zero : numeral b 0 = [0] := if_pos rfl

theorem numeral_of_ne_zero (hn : n ≠ 0) : numeral b n = (Nat.digits b n).reverse := if_neg hn

theorem numeral_denotes (hb : 1 < b) (n : ℕ) : Denotes b n (numeral b n) := by
  by_cases hn : n = 0
  · subst hn
    rw [numeral_zero]
    refine ⟨by simp, fun d hd => ?_, value_zero b⟩
    rw [List.mem_singleton.mp hd]
    omega
  · rw [numeral_of_ne_zero hn]
    refine ⟨?_, fun d hd => Nat.digits_lt_base hb (List.mem_reverse.mp hd), ?_⟩
    · rw [Ne, List.reverse_eq_nil_iff, Nat.digits_eq_nil_iff_eq_zero]
      exact hn
    · rw [value_reverse, Nat.ofDigits_digits]

/-- With `k` digits only numbers below `b ^ k` can be written. -/
theorem Denotes.lt_pow (hb : 1 < b) (h : Denotes b n ds) : n < b ^ ds.length := by
  have hlt := Nat.ofDigits_lt_base_pow_length hb fun d hd => h.lt d (List.mem_reverse.mp hd)
  rwa [← value_reverse, List.reverse_reverse, h.value_eq, List.length_reverse] at hlt

theorem numeral_shortest (hb : 1 < b) (n : ℕ) : Shortest b n (numeral b n) := by
  refine ⟨numeral_denotes hb n, fun es h => ?_⟩
  by_cases hn : n = 0
  · rw [hn, numeral_zero]
    exact List.length_pos_of_ne_nil h.ne_nil
  · rw [numeral_of_ne_zero hn, List.length_reverse, Nat.digits_length_le_iff hb]
    exact h.lt_pow hb

/-- Without its leading zero a numeral is still one. -/
theorem Denotes.tail (h : Denotes b n (0 :: ds)) (hne : ds ≠ []) : Denotes b n ds := by
  refine ⟨hne, fun d hd => h.lt d (List.mem_cons_of_mem 0 hd), ?_⟩
  have hvalue := h.value_eq
  rwa [value, List.foldl_cons, Nat.zero_mul] at hvalue

theorem Shortest.head_ne_zero (h : Shortest b n ds) (hn : n ≠ 0) : ds.head? ≠ some 0 := by
  intro hhead
  obtain ⟨es, rfl⟩ : ∃ es, ds = 0 :: es := List.head?_eq_some_iff.mp hhead
  by_cases hes : es = []
  · subst hes
    exact hn (h.value_eq.symm.trans (value_zero b))
  · have hlen := h.length_le es (h.toDenotes.tail hes)
    rw [List.length_cons] at hlen
    omega

end Digits

section Reading

variable {α : Type*} {digit : α → Option ℕ} {glyph : ℕ → α} {b n : ℕ} {ds : List ℕ}

/-- Reading a numeral from its glyphs. -/
def parse (digit : α → Option ℕ) (b : ℕ) : List α → Option ℕ
  | [] => none
  | c :: cs => ((c :: cs).mapM digit).map (value b)

/-- Reading a numeral behind an optional sign. -/
def parseSigned [DecidableEq α] (minus : α) (digit : α → Option ℕ) (b : ℕ) : List α → Option ℤ
  | [] => none
  | c :: cs =>
    if c = minus then (parse digit b cs).map fun v : ℕ => -(v : ℤ)
    else (parse digit b (c :: cs)).map fun v : ℕ => (v : ℤ)

theorem mapM_digit (hglyph : ∀ d ∈ ds, digit (glyph d) = some d) :
    (ds.map glyph).mapM digit = some ds := by
  induction ds with
  | nil => rfl
  | cons d ds ih =>
    rw [List.map_cons, List.mapM_cons, hglyph d List.mem_cons_self,
      ih fun e he => hglyph e (List.mem_cons_of_mem d he)]
    rfl

/-- What is written with readable glyphs is read back. -/
theorem parse_glyphs (hglyph : ∀ d < b, digit (glyph d) = some d) (h : Denotes b n ds) :
    parse digit b (ds.map glyph) = some n := by
  have hread := mapM_digit fun d hd => hglyph d (h.lt d hd)
  cases ds with
  | nil => exact absurd rfl h.ne_nil
  | cons d ds =>
    rw [List.map_cons] at hread ⊢
    rw [parse, hread, Option.map_some, h.value_eq]

variable [DecidableEq α] {minus : α}

theorem parseSigned_minus (hglyph : ∀ d < b, digit (glyph d) = some d) (h : Denotes b n ds) :
    parseSigned minus digit b (minus :: ds.map glyph) = some (-(n : ℤ)) := by
  rw [parseSigned, if_pos rfl, parse_glyphs hglyph h, Option.map_some]

/-- A digit is not taken for the sign, which cannot be read as a digit. -/
theorem parseSigned_digits (hglyph : ∀ d < b, digit (glyph d) = some d)
    (hminus : digit minus = none) (h : Denotes b n ds) :
    parseSigned minus digit b (ds.map glyph) = some (n : ℤ) := by
  have hread := parse_glyphs hglyph h
  cases ds with
  | nil => exact absurd rfl h.ne_nil
  | cons d ds =>
    have hne : glyph d ≠ minus := by
      intro he
      have hd := hglyph d (h.lt d List.mem_cons_self)
      rw [he, hminus] at hd
      cases hd
    rw [List.map_cons] at hread ⊢
    rw [parseSigned, if_neg hne, hread, Option.map_some]

end Reading

end KallarOS.Numerals
