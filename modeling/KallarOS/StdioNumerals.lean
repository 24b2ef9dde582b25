import KallarOS.StdioFormat

namespace KallarOS.Stdio
open Numerals

/-- A decimal digit, as a reader takes it. -/
def decValue (c : UInt8) : Option ℕ :=
  if ascii '0' ≤ c ∧ c ≤ ascii '9' then some (c.toNat - 48) else none

/-- A hexadecimal digit, as a reader takes it. -/
def hexValue (c : UInt8) : Option ℕ :=
  if ascii '0' ≤ c ∧ c ≤ ascii '9' then some (c.toNat - 48)
  else if ascii 'A' ≤ c ∧ c ≤ ascii 'F' then some (c.toNat - 65 + 10)
  else if ascii 'a' ≤ c ∧ c ≤ ascii 'f' then some (c.toNat - 97 + 10)
  else none

/-- The format of the callers, `"0x%x"`. -/
def addressFormat : CString := ⟨[ascii '0', ascii 'x', ascii '%', ascii 'x'], by decide⟩

/-- `print_hex` gives the digits `ds` of the shortest numeral of `n` to the console, from
a string that it built without a fault, in its eleven bytes. -/
structure PrintsHex (n : CInt) (ds : List ℕ) : Prop where
  shortest : Shortest 16 n.toNat ds
  leading : n ≠ 0 → (ds.map hexDigit).head? ≠ some (ascii '0')
  buffer : ∀ junk : ℕ → UInt8, n ≠ 0 → hexBuffer junk n = .ok (ds.map hexDigit ++ [0])
  printed : ∀ (junk : ℕ → UInt8) (σ : Type) (out : Console σ) (s : σ),
    printHex out junk n s = emit out (ds.map hexDigit) s
  parsed : parse hexValue 16 (ds.map hexDigit) = some n.toNat
  address : ∀ (junk : ℕ → UInt8) (σ : Type) (out : Console σ) (s : σ),
    printf out junk addressFormat.memory [.int n] s =
      emit out (ascii '0' :: ascii 'x' :: ds.map hexDigit) s >>= fun s => .ok (0, [], s)

section Hexadecimal

theorem hexValue_hexDigit : ∀ d < 16, hexValue (hexDigit d) = some d := by
  decide

theorem hexDigit_eq_zero {d : ℕ} (hd : d < 16) (h : hexDigit d = ascii '0') : d = 0 := by
  have hread := hexValue_hexDigit d hd
  rw [h] at hread
  exact (Option.some.inj hread).symm

/-- The callers' prefix stands in front of what `print_hex` shows. -/
theorem printf_address {σ : Type} {out : Console σ} {s : σ} (junk : ℕ → UInt8) (n : CInt) :
    printf out junk addressFormat.memory [.int n] s =
      emit out (ascii '0' :: ascii 'x' :: hexNumeral n) s >>= fun s => .ok (0, [], s) := by
  have hprintf : printf out junk addressFormat.memory ([.int n] ++ []) s = _ :=
    printf_eq junk addressFormat [] rfl
  have htext : expand junk (pieces addressFormat.chars) [.int n] =
      ascii '0' :: ascii 'x' :: hexNumeral n := by
    rw [← hexText_eq junk n]
    exact congrArg (fun cs => ascii '0' :: ascii 'x' :: cs) (List.append_nil _)
  rw [htext] at hprintf
  exact hprintf

theorem printsHex_numeral {n : CInt} (hn : n ≠ 0) : PrintsHex n (numeral 16 n.toNat) := by
  have hn' : n.toNat ≠ 0 := fun h => hn (BitVec.eq_of_toNat_eq h)
  have hshort := numeral_shortest (b := 16) (by omega) n.toNat
  have htext : hexNumeral n = (numeral 16 n.toNat).map hexDigit := if_neg hn
  constructor
  · exact hshort
  · intro _ hhead
    rw [List.head?_map, Option.map_eq_some_iff] at hhead
    obtain ⟨d, hd, hzero⟩ := hhead
    have hlt := hshort.lt d (List.mem_of_head? hd)
    rw [hexDigit_eq_zero hlt hzero] at hd
    exact hshort.head_ne_zero hn' hd
  · intro junk _
    rw [hexBuffer_eq, numeral_of_ne_zero hn']
  · intro junk σ out s
    rw [← htext]
    exact printHex_numeral junk n
  · exact parse_glyphs hexValue_hexDigit hshort.toDenotes
  · intro junk σ out s
    rw [← htext]
    exact printf_address junk n

/-- The shortest numeral of zero has one digit, and `print_hex` shows three characters. -/
theorem not_printsHex_zero (ds : List ℕ) : ¬PrintsHex 0 ds := by
  intro h
  have hprinted := h.printed (fun _ => 0) _ journal []
  rw [printHex_numeral, emit_journal, emit_journal] at hprinted
  have htext : hexNumeral 0 = ds.map hexDigit := Except.ok.inj hprinted
  have hlen := congrArg List.length htext
  rw [List.length_map] at hlen
  have hshort := h.shortest.length_le [0] ⟨by simp, by simp, value_zero 16⟩
  rw [← hlen] at hshort
  revert hshort
  decide

end Hexadecimal

/-- `print_hex` shows the shortest numeral of every number but zero, in front of which
it puts a prefix. -/
theorem print_hex_numeral_iff (n : CInt) : (∃ ds, PrintsHex n ds) ↔ n ≠ 0 := by
  constructor
  · rintro ⟨ds, h⟩ rfl
    exact not_printsHex_zero ds h
  · intro hn
    exact ⟨_, printsHex_numeral hn⟩

theorem zero_has_two_prefixes :
    printHex journal (fun _ => 0) 0 [] = .ok [ascii '0', ascii 'x', ascii '0'] ∧
      printf journal (fun _ => 0) addressFormat.memory [.int 0] [] =
        .ok (0, [], [ascii '0', ascii 'x', ascii '0', ascii 'x', ascii '0']) ∧
      ¬∃ ds, PrintsHex 0 ds := by
  refine ⟨by decide, ?_, ?_⟩
  · rw [printf_address, emit_journal]
    rfl
  · rintro ⟨ds, h⟩
    exact not_printsHex_zero ds h

/-- `print_int` gives the sign and the digits `ds` of the shortest numeral of `n` to the
console, from the start of its twelve bytes, which it filled without a fault. -/
structure PrintsInt (n : CInt) (ds : List ℕ) : Prop where
  shortest : Shortest 10 n.toInt.natAbs ds
  sign : (signText n ++ ds.map decDigit).head? = some (ascii '-') ↔ n.toInt < 0
  buffer : ∀ junk : ℕ → UInt8, n ≠ 0 → ∃ chars tail, intBuffer junk n = .ok chars ∧
    chars.length = 12 ∧ chars = signText n ++ ds.map decDigit ++ 0 :: tail
  printed : ∀ (junk : ℕ → UInt8) (σ : Type) (out : Console σ) (s : σ),
    printInt out junk n s = emit out (signText n ++ ds.map decDigit) s
  parsed : parseSigned (ascii '-') decValue 10 (signText n ++ ds.map decDigit) = some n.toInt

section Decimal

theorem decValue_decDigit : ∀ d < 10, decValue (decDigit d) = some d := by
  decide

theorem decValue_minus : decValue (ascii '-') = none := by
  decide

theorem parseSigned_intNumeral (n : CInt) :
    parseSigned (ascii '-') decValue 10 (intNumeral n) = some n.toInt := by
  have hdenotes := numeral_denotes (b := 10) (by omega) n.toInt.natAbs
  unfold intNumeral signText
  by_cases hneg : n.toInt < 0
  · rw [if_pos hneg, List.singleton_append, parseSigned_minus decValue_decDigit hdenotes]
    congr 1
    omega
  · rw [if_neg hneg, List.nil_append, parseSigned_digits decValue_decDigit decValue_minus hdenotes]
    congr 1
    omega

/-- No digit looks like the sign. -/
theorem head_intNumeral (n : CInt) : (intNumeral n).head? = some (ascii '-') ↔ n.toInt < 0 := by
  have hdenotes := numeral_denotes (b := 10) (by omega) n.toInt.natAbs
  unfold intNumeral signText
  by_cases hneg : n.toInt < 0
  · simp [hneg]
  · rw [if_neg hneg, List.nil_append, List.head?_map, Option.map_eq_some_iff, iff_false_right hneg]
    rintro ⟨d, hd, hminus⟩
    have hread := decValue_decDigit d (hdenotes.lt d (List.mem_of_head? hd))
    rw [hminus, decValue_minus] at hread
    cases hread

theorem printsInt_numeral (n : CInt) : PrintsInt n (numeral 10 n.toInt.natAbs) := by
  constructor
  · exact numeral_shortest (by omega) n.toInt.natAbs
  · exact head_intNumeral n
  · intro junk hn
    obtain ⟨tail, hbuffer, hlen⟩ := intBuffer_eq junk hn
    refine ⟨_, tail, hbuffer, ?_, by rw [numeral_of_ne_zero (natAbs_toInt_ne_zero hn)]⟩
    simp only [List.length_append, List.length_map, List.length_reverse, List.length_cons]
    omega
  · exact fun junk σ out s => printInt_numeral junk n
  · exact parseSigned_intNumeral n

end Decimal

/-- `print_int` shows the shortest numeral of every number, and so different texts for
different numbers. -/
theorem print_int_numeral :
    (∀ n : CInt, ∃ ds, PrintsInt n ds) ∧
      ∀ (junk junk' : ℕ → UInt8) (m n : CInt), intText junk m = intText junk' n → m = n := by
  constructor
  · intro n
    exact ⟨_, printsInt_numeral n⟩
  · intro junk junk' m n htext
    rw [intText_eq, intText_eq] at htext
    have hm := parseSigned_intNumeral m
    rw [htext, parseSigned_intNumeral n] at hm
    exact BitVec.eq_of_toInt_eq (Option.some.inj hm).symm

-- the minimum, whose eleven characters and terminator leave no byte of the buffer
example : intText (fun _ => 7) (BitVec.intMin 32) =
    [45, 50, 49, 52, 55, 52, 56, 51, 54, 52, 56] := by decide

end KallarOS.Stdio
