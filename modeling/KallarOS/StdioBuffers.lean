import KallarOS.Numerals
import KallarOS.StdioOutput

namespace KallarOS.Stdio
open Numerals

def decDigit (d : ℕ) : UInt8 := UInt8.ofNat (d + 48)

def signText (n : CInt) : List UInt8 := if n.toInt < 0 then [ascii '-'] else []

/-- The decimal numeral of `n`. -/
def intNumeral (n : CInt) : List UInt8 := signText n ++ (numeral 10 n.toInt.natAbs).map decDigit

/-- What `print_hex` shows: a prefix for zero, and digits alone for everything else. -/
def hexNumeral (n : CInt) : List UInt8 :=
  if n = 0 then [ascii '0', ascii 'x', ascii '0'] else (numeral 16 n.toNat).map hexDigit

section Loops

variable {n fuel : ℕ} {c x : UInt8}

theorem storeChar_append (done rest : List UInt8) :
    storeChar (done ++ x :: rest) done.length c = .ok (done ++ c :: rest) := by
  have hin : done.length < (done ++ x :: rest).length := by simp
  rw [storeChar, if_pos hin, List.set_append_right _ _ (Nat.le_refl _), Nat.sub_self]
  rfl

/-- The digits go in front of `back` from the last one on, and `front` is long enough
for them. -/
theorem hexLoop_eq {i : ℕ} (front back : List UInt8) (hlen : front.length = i + 1)
    (hn : n < 16 ^ (i - 1)) (hfuel : i ≤ fuel + 1) :
    ∃ j front', hexLoop (fuel + 1) n i (front ++ back) =
        .ok (j, front' ++ ((Nat.digits 16 n).reverse.map hexDigit ++ back)) ∧
      front'.length = j + 1 := by
  induction fuel generalizing n i front back with
  | zero =>
    rw [show i - 1 = 0 by omega, Nat.pow_zero] at hn
    obtain rfl : n = 0 := by omega
    exact ⟨i, front, if_neg (by omega), hlen⟩
  | succ fuel ih =>
    by_cases hzero : n = 0
    · subst hzero
      exact ⟨i, front, if_neg (by omega), hlen⟩
    have hi : 2 ≤ i := by
      by_contra hlt
      rw [show i - 1 = 0 by omega, Nat.pow_zero] at hn
      omega
    obtain ⟨front, x, rfl⟩ : ∃ l a, front = l ++ [a] :=
      (List.eq_nil_or_concat' front).resolve_left fun h => by rw [h] at hlen; cases hlen
    have hlen' : front.length = i := by simpa using hlen
    have hstore : storeChar (front ++ [x] ++ back) i (hexDigit (n % 16)) =
        .ok (front ++ hexDigit (n % 16) :: back) := by
      rw [List.append_assoc, ← hlen']
      exact storeChar_append front back
    have hn' : n / 16 < 16 ^ (i - 1 - 1) := by
      rw [show i - 1 = i - 1 - 1 + 1 by omega, Nat.pow_succ] at hn
      exact Nat.div_lt_of_lt_mul (by omega)
    obtain ⟨j, front', hrun, hj⟩ := ih front (hexDigit (n % 16) :: back) (by omega) hn' (by omega)
    have hdigits : Nat.digits 16 n = n % 16 :: Nat.digits 16 (n / 16) :=
      Nat.digits_def' (by omega) (by omega)
    refine ⟨j, front', ?_, hj⟩
    rw [hexLoop, if_pos ⟨by omega, hi⟩, hstore, Outcome.ok_bind, hrun, hdigits, List.reverse_cons,
      List.map_append, List.append_assoc]
    rfl

/-- The digits go behind `done` from the last one on. -/
theorem digitLoop_eq (done rest : List UInt8) (hroom : (Nat.digits 10 n).length ≤ rest.length)
    (hfuel : (Nat.digits 10 n).length ≤ fuel) :
    digitLoop (fuel + 1) n done.length (done ++ rest) =
      .ok (done.length + (Nat.digits 10 n).length,
        done ++ (Nat.digits 10 n).map decDigit ++ rest.drop (Nat.digits 10 n).length) := by
  induction fuel generalizing n done rest with
  | zero =>
    have hzero : Nat.digits 10 n = [] := List.length_eq_zero_iff.mp (by omega)
    rw [hzero, Nat.digits_eq_nil_iff_eq_zero.mp hzero]
    simp [digitLoop]
  | succ fuel ih =>
    by_cases hzero : n = 0
    · subst hzero
      simp [digitLoop]
    rw [Nat.digits_def' (by omega) (by omega)] at hroom hfuel ⊢
    rw [List.length_cons] at hroom hfuel ⊢
    obtain ⟨x, rest, rfl⟩ : ∃ x l, rest = x :: l :=
      List.exists_cons_of_ne_nil fun h => by rw [h] at hroom; cases hroom
    have hmove : done ++ decDigit (n % 10) :: rest = done ++ [decDigit (n % 10)] ++ rest := by simp
    have hlen : (done ++ [decDigit (n % 10)]).length = done.length + 1 := by simp
    have hrun := ih (n := n / 10) (done ++ [decDigit (n % 10)]) rest
      (Nat.le_of_succ_le_succ hroom) (Nat.le_of_succ_le_succ hfuel)
    rw [hlen] at hrun
    rw [digitLoop, if_pos (by omega), storeChar_append, Outcome.ok_bind]
    change digitLoop (fuel + 1) (n / 10) (done.length + 1) (done ++ decDigit (n % 10) :: rest) = _
    rw [hmove, hrun]
    simp [Nat.add_assoc, Nat.add_comm 1]

theorem putSign_eq (n : CInt) (done : List UInt8) (x : UInt8) (rest : List UInt8) :
    putSign n done.length (done ++ x :: rest) =
      .ok ((done ++ signText n).length, done ++ signText n ++ (x :: rest).drop (signText n).length) := by
  unfold putSign signText
  by_cases hneg : n.toInt < 0
  · rw [if_pos hneg, if_pos hneg, storeChar_append]
    simp
  · simp [if_neg hneg]

/-- The two ends of `mid` meet in its middle. -/
theorem reverseLoop_eq {last : ℕ} (front mid back : List UInt8)
    (hlast : last + 1 = front.length + mid.length) (hfuel : mid.length ≤ 2 * fuel + 1) :
    reverseLoop (fuel + 1) front.length last (front ++ mid ++ back) =
      .ok (front ++ mid.reverse ++ back) := by
  induction fuel generalizing front mid back last with
  | zero =>
    have hone : mid.reverse = mid := by
      rcases mid with _ | ⟨a, _ | ⟨b, mid⟩⟩
      · rfl
      · rfl
      · simp at hfuel
    rw [reverseLoop, if_neg (by omega), hone]
  | succ fuel ih =>
    rcases mid with _ | ⟨a, mid⟩
    · rw [reverseLoop, if_neg (by simp at hlast; omega)]
      rfl
    rcases List.eq_nil_or_concat' mid with rfl | ⟨mid, b, rfl⟩
    · rw [reverseLoop, if_neg (by simp at hlast; omega)]
      rfl
    have hend : (front ++ a :: mid).length = last := by simp at hlast ⊢; omega
    have hend' : (front ++ b :: mid).length = last := by simp at hlast ⊢; omega
    have hbuffer : front ++ a :: (mid ++ [b]) ++ back = front ++ a :: (mid ++ b :: back) := by simp
    have hread : charAt (front ++ a :: (mid ++ b :: back)) last = .ok b := by
      have h := charAt_append (front ++ a :: mid) back b
      rwa [hend, List.append_assoc, List.cons_append] at h
    have hstore : storeChar (front ++ b :: (mid ++ b :: back)) last a =
        .ok (front ++ [b] ++ mid ++ a :: back) := by
      have h := storeChar_append (front ++ b :: mid) back (x := b) (c := a)
      rw [hend', List.append_assoc, List.cons_append] at h
      rw [h]
      simp
    have hlast' : last - 1 + 1 = (front ++ [b]).length + mid.length := by simp at hlast ⊢; omega
    have hrun := ih (front ++ [b]) mid (a :: back) hlast' (by simp at hfuel; omega)
    rw [List.length_append, List.length_singleton] at hrun
    rw [hbuffer, reverseLoop, if_pos (by simp at hlast; omega), charAt_append, Outcome.ok_bind, hread,
      Outcome.ok_bind, storeChar_append, Outcome.ok_bind, hstore, Outcome.ok_bind, hrun]
    simp

end Loops

section Buffers

variable {n : CInt}

theorem negation_eq_natAbs (n : CInt) :
    (if n.toInt < 0 then (-n).toNat else n.toNat) = n.toInt.natAbs := by
  have hlt := n.isLt
  by_cases hneg : n.toInt < 0
  · rw [if_pos hneg, BitVec.toNat_neg]
    rw [BitVec.toInt_eq_toNat_cond] at hneg ⊢
    split at hneg <;> omega
  · rw [if_neg hneg]
    rw [BitVec.toInt_eq_toNat_cond] at hneg ⊢
    split at hneg <;> omega

/-- A 32-bit number has at most eight hexadecimal digits. -/
theorem hexBuffer_eq (junk : ℕ → UInt8) (n : CInt) :
    hexBuffer junk n = .ok ((Nat.digits 16 n.toNat).reverse.map hexDigit ++ [0]) := by
  let front := ascii '0' :: ascii 'x' :: (List.range 8).map fun k => junk (k + 2)
  have hstart : (((stackArray junk 11).set 0 (ascii '0')).set 1 (ascii 'x')).set 10 0 =
      front ++ [0] := rfl
  have hlen : front.length = 9 + 1 := rfl
  have hlt : n.toNat < 16 ^ (9 - 1) := by
    have h := n.isLt
    omega
  obtain ⟨j, front', hloop, hj⟩ : ∃ j front', hexLoop (8 + 1) n.toNat 9 (front ++ [0]) =
        .ok (j, front' ++ ((Nat.digits 16 n.toNat).reverse.map hexDigit ++ [0])) ∧
      front'.length = j + 1 := hexLoop_eq front [0] hlen hlt (by omega)
  rw [hexBuffer, storeChar_ok (by simp), Outcome.ok_bind, storeChar_ok (by simp), Outcome.ok_bind,
    storeChar_ok (by simp), Outcome.ok_bind, hstart, hloop, Outcome.ok_bind]
  exact congrArg Except.ok (List.drop_left' hj)

theorem length_signText_le (n : CInt) : (signText n).length ≤ 1 := by
  unfold signText
  split <;> simp

theorem reverse_signText (n : CInt) : (signText n).reverse = signText n := by
  unfold signText
  split <;> rfl

/-- A 32-bit number has at most ten decimal digits. -/
theorem length_digits_le (n : CInt) : (Nat.digits 10 n.toInt.natAbs).length ≤ 10 := by
  have hmin := BitVec.le_toInt n
  have hmax := BitVec.toInt_lt (x := n)
  rw [Nat.digits_length_le_iff (by omega)]
  omega

theorem natAbs_toInt_ne_zero (hn : n ≠ 0) : n.toInt.natAbs ≠ 0 := by
  rw [Int.natAbs_ne_zero]
  exact fun h => hn (BitVec.eq_of_toInt_eq h)

/-- The digits stand at the bottom of the buffer, and two places are left behind them. -/
theorem digitLoop_stackArray (junk : ℕ → UInt8) (n : CInt) : ∃ x y rest,
    digitLoop 13 n.toInt.natAbs 0 (stackArray junk 12) =
      .ok ((Nat.digits 10 n.toInt.natAbs).length,
        (Nat.digits 10 n.toInt.natAbs).map decDigit ++ x :: y :: rest) ∧
    (Nat.digits 10 n.toInt.natAbs).length + 2 + rest.length = 12 := by
  have hten := length_digits_le n
  have hloop : digitLoop (12 + 1) n.toInt.natAbs ([] : List UInt8).length
      ([] ++ stackArray junk 12) = _ :=
    digitLoop_eq [] (stackArray junk 12) (by rw [length_stackArray]; omega) (by omega)
  rw [List.length_nil, Nat.zero_add, List.nil_append, List.nil_append,
    List.drop_eq_getElem_cons (by rw [length_stackArray]; omega),
    List.drop_eq_getElem_cons (by rw [length_stackArray]; omega)] at hloop
  refine ⟨_, _, _, hloop, ?_⟩
  rw [List.length_drop, length_stackArray]
  omega

/-- The minimum fills the buffer: ten digits, the sign and the terminator. -/
theorem intBuffer_eq (junk : ℕ → UInt8) (hn : n ≠ 0) : ∃ tail,
    intBuffer junk n =
      .ok (signText n ++ (Nat.digits 10 n.toInt.natAbs).reverse.map decDigit ++ 0 :: tail) ∧
    (signText n).length + (Nat.digits 10 n.toInt.natAbs).length + 1 + tail.length = 12 := by
  obtain ⟨x, y, rest, hdigits, hroom⟩ := digitLoop_stackArray junk n
  obtain ⟨ds, hds⟩ : ∃ ds, ds = Nat.digits 10 n.toInt.natAbs := ⟨_, rfl⟩
  rw [← hds] at hdigits hroom ⊢
  have hpos : 0 < ds.length := by
    rw [hds, List.length_pos_iff, Nat.digits_ne_nil_iff_ne_zero]
    exact natAbs_toInt_ne_zero hn
  have hone := length_signText_le n
  obtain ⟨z, tail, htail⟩ : ∃ z l, (x :: y :: rest).drop (signText n).length = z :: l := by
    rw [List.drop_eq_getElem_cons (by simp only [List.length_cons]; omega)]
    exact ⟨_, _, rfl⟩
  obtain ⟨mid, hmid⟩ : ∃ mid, mid = ds.map decDigit ++ signText n := ⟨_, rfl⟩
  have hlen : mid.length = ds.length + (signText n).length := by simp [hmid]
  have hsign : putSign n ds.length (ds.map decDigit ++ x :: y :: rest) =
      .ok (mid.length, mid ++ z :: tail) := by
    have h := putSign_eq n (ds.map decDigit) x (y :: rest)
    rwa [List.length_map, htail, ← hmid] at h
  have hreverse : reverseLoop 12 0 (mid.length - 1) (mid ++ 0 :: tail) =
      .ok (mid.reverse ++ 0 :: tail) :=
    reverseLoop_eq [] mid (0 :: tail) (by simp; omega) (by omega)
  refine ⟨tail, ?_, ?_⟩
  · rw [intBuffer, negation_eq_natAbs, hdigits, Outcome.ok_bind]
    simp only [hsign, Outcome.ok_bind, storeChar_append, hreverse]
    rw [hmid, List.reverse_append, reverse_signText, ← List.map_reverse]
  · have hleft := congrArg List.length htail
    simp only [List.length_drop, List.length_cons] at hleft
    omega

end Buffers

section Texts

variable {σ : Type} {out : Console σ} {s : σ} {junk : ℕ → UInt8} {n : CInt}

/-- A byte that `print_string` takes neither for the end nor for an error. -/
def Plain (c : UInt8) : Prop := c ≠ 0 ∧ c ≠ 0xFF

instance (c : UInt8) : Decidable (Plain c) := inferInstanceAs (Decidable (_ ∧ _))

theorem plain_hexDigit {d : ℕ} (hd : d < 16) : Plain (hexDigit d) := by
  interval_cases d <;> decide

theorem plain_decDigit {d : ℕ} (hd : d < 10) : Plain (decDigit d) := by
  interval_cases d <;> decide

theorem plain_glyphs {b m : ℕ} {glyph : ℕ → UInt8} (hb : 1 < b) (h : ∀ d < b, Plain (glyph d)) :
    ∀ c ∈ (Nat.digits b m).reverse.map glyph, Plain c := by
  intro c hc
  obtain ⟨d, hd, rfl⟩ := List.mem_map.mp hc
  exact h d (Nat.digits_lt_base hb (List.mem_reverse.mp hd))

theorem plain_signText (n : CInt) : ∀ c ∈ signText n, Plain c := by
  unfold signText
  split
  · simp [Plain, ascii]
  · simp

/-- `print_string` shows plain bytes up to the terminator. -/
theorem printString_plain (cs tail : List UInt8) (h : ∀ c ∈ cs, Plain c) :
    (do let (_, s) ← printString out (cs ++ 0 :: tail) s; return s) = emit out cs s := by
  have hnul : 0 ∉ cs := fun h0 => (h 0 h0).1 rfl
  have hff : 0xFF ∉ cs := fun h0 => (h 0xFF h0).2 rfl
  refine (printString_shown hnul Except.ok).trans ?_
  rw [shown_of_notMem hff]
  exact bind_pure _

theorem printHex_numeral (junk : ℕ → UInt8) (n : CInt) :
    printHex out junk n s = emit out (hexNumeral n) s := by
  unfold printHex hexNumeral
  by_cases hn : n = 0
  · rw [if_pos hn, if_pos hn]
    exact printString_plain [ascii '0', ascii 'x', ascii '0'] [] (by simp [Plain, ascii])
  · have hn' : n.toNat ≠ 0 := fun h => hn (BitVec.eq_of_toNat_eq h)
    rw [if_neg hn, if_neg hn, hexBuffer_eq, Outcome.ok_bind, numeral_of_ne_zero hn']
    exact printString_plain _ [] (plain_glyphs (by omega) fun d => plain_hexDigit)

theorem printInt_numeral (junk : ℕ → UInt8) (n : CInt) :
    printInt out junk n s = emit out (intNumeral n) s := by
  unfold printInt intNumeral
  by_cases hn : n = 0
  · subst hn
    exact printString_plain [ascii '0'] [] (by simp [Plain, ascii])
  · obtain ⟨tail, hbuffer, -⟩ := intBuffer_eq junk hn
    rw [if_neg hn, hbuffer, Outcome.ok_bind, numeral_of_ne_zero (natAbs_toInt_ne_zero hn)]
    apply printString_plain
    intro c hc
    rcases List.mem_append.mp hc with hc | hc
    · exact plain_signText n c hc
    · exact plain_glyphs (by omega) (fun d => plain_decDigit) c hc

theorem hexText_eq (junk : ℕ → UInt8) (n : CInt) : hexText junk n = hexNumeral n :=
  written_of_emit (printHex_numeral junk n)

theorem intText_eq (junk : ℕ → UInt8) (n : CInt) : intText junk n = intNumeral n :=
  written_of_emit (printInt_numeral junk n)

theorem printHex_eq (junk : ℕ → UInt8) (n : CInt) :
    printHex out junk n s = emit out (hexText junk n) s := by
  rw [hexText_eq, printHex_numeral]

theorem printInt_eq (junk : ℕ → UInt8) (n : CInt) :
    printInt out junk n s = emit out (intText junk n) s := by
  rw [intText_eq, printInt_numeral]

end Texts

end KallarOS.Stdio
