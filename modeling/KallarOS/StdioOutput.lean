import KallarOS.StdioModel

namespace KallarOS.Stdio

/-- The characters `cs` go to the console one after the other. -/
def emit {σ : Type} (out : Console σ) (cs : List UInt8) (s : σ) : Outcome σ := cs.foldlM out s

/-- A console that keeps every character. -/
def journal : Console (List UInt8) := fun log c => .ok (log ++ [c])

/-- What a routine writes on an empty journal. -/
def written (f : List UInt8 → Outcome (List UInt8)) : List UInt8 := (f []).toOption.getD []

section Emission

variable {σ : Type} {out : Console σ} {s : σ}

@[simp] theorem emit_nil : emit out [] s = .ok s := rfl

@[simp] theorem emit_cons (c : UInt8) (cs : List UInt8) :
    emit out (c :: cs) s = out s c >>= emit out cs := rfl

theorem emit_append (cs ds : List UInt8) :
    emit out (cs ++ ds) s = emit out cs s >>= emit out ds := List.foldlM_append

theorem emit_journal (cs log : List UInt8) : emit journal cs log = .ok (log ++ cs) := by
  induction cs generalizing log with
  | nil => simp
  | cons c cs ih =>
    rw [emit_cons, journal, Outcome.ok_bind, ih, List.append_assoc]
    rfl

theorem intToChar_charToInt (c : UInt8) : intToChar (charToInt c) = c := by
  have hbits : (c.toBitVec.signExtend 32).setWidth 8 = c.toBitVec := by
    apply BitVec.eq_of_getLsbD_eq
    intro i hi
    rw [BitVec.getLsbD_setWidth, BitVec.getLsbD_signExtend]
    simp [hi, show i < 32 by omega]
  exact congrArg UInt8.ofBitVec hbits

theorem charToInt_eq_eof (c : UInt8) : charToInt c = eof ↔ c = 0xFF := by
  constructor
  · intro h
    rw [← intToChar_charToInt c, h]
    decide
  · rintro rfl
    decide

theorem putchar_eq (c : UInt8) :
    putchar out (charToInt c) s = out s c >>= fun s => .ok (charToInt c, s) := by
  rw [putchar, intToChar_charToInt]
  rfl

/-- `putchar` for its output alone. -/
theorem putchar_emit (c : UInt8) {β : Type} (f : σ → Outcome β) :
    (putchar out (charToInt c) s >>= fun r => f r.2) = emit out [c] s >>= f := by
  rw [putchar_eq, emit_cons]
  cases out s c with
  | error e => rfl
  | ok s => rfl

theorem charAt_append (done rest : List UInt8) (c : UInt8) :
    charAt (done ++ c :: rest) done.length = .ok c := by
  rw [charAt, List.getElem?_append_right (Nat.le_refl _), Nat.sub_self]
  rfl

end Emission

/-- What `print_string` shows of a string: a byte 0xFF is taken for EOF and ends it. -/
def shown : List UInt8 → List UInt8
  | [] => []
  | c :: cs => if c = 0xFF then [c] else c :: shown cs

section Strings

variable {σ : Type} {out : Console σ} {s : σ} {cs tail : List UInt8}

/-- At the end of a string the byte 0xFF does no harm to what is shown. -/
theorem shown_eq_self_iff : shown cs = cs ↔ 0xFF ∉ cs.dropLast := by
  induction cs with
  | nil => simp [shown]
  | cons c cs ih =>
    cases cs with
    | nil => simp [shown]
    | cons d cs =>
      rw [shown, List.dropLast_cons_cons, List.mem_cons, not_or, ← ih]
      by_cases hff : c = 0xFF
      · simp [hff]
      · simp [hff, Ne.symm hff]

theorem shown_of_notMem (h : 0xFF ∉ cs) : shown cs = cs :=
  shown_eq_self_iff.mpr fun hff => h (List.mem_of_mem_dropLast hff)

theorem printStringLoop_nul (done : List UInt8) (fuel : ℕ) :
    printStringLoop out (done ++ 0 :: tail) (fuel + 1) done.length s =
      .ok (BitVec.ofNat 32 done.length, s) := by
  rw [printStringLoop, charAt_append, Outcome.ok_bind, if_pos rfl]

theorem printStringLoop_char (done : List UInt8) (fuel : ℕ) {c : UInt8} (hc : c ≠ 0) :
    printStringLoop out (done ++ c :: tail) (fuel + 1) done.length s =
      out s c >>= fun s => if c = 0xFF then .ok (eof, s)
        else printStringLoop out (done ++ c :: tail) fuel (done.length + 1) s := by
  rw [printStringLoop, charAt_append, Outcome.ok_bind, if_neg hc, putchar_eq]
  cases out s c with
  | error e => rfl
  | ok s => simp only [Outcome.ok_bind, charToInt_eq_eof]

/-- The loop from behind `done` on: what it shows of `cs`, and what it returns. -/
theorem printStringLoop_eq (done : List UInt8) {fuel : ℕ} (hnul : 0 ∉ cs) (hfuel : cs.length < fuel) :
    printStringLoop out (done ++ (cs ++ 0 :: tail)) fuel done.length s =
      emit out (shown cs) s >>= fun s =>
        .ok (if 0xFF ∈ cs then eof else BitVec.ofNat 32 (done.length + cs.length), s) := by
  induction cs generalizing done fuel s with
  | nil =>
    obtain ⟨fuel, rfl⟩ : ∃ k, fuel = k + 1 := ⟨fuel - 1, by simp at hfuel; omega⟩
    rw [List.nil_append, printStringLoop_nul]
    rfl
  | cons c cs ih =>
    obtain ⟨fuel, rfl⟩ : ∃ k, fuel = k + 1 := ⟨fuel - 1, by simp at hfuel; omega⟩
    obtain ⟨hc, hcs⟩ := not_or.mp (List.mem_cons.not.mp hnul)
    rw [List.cons_append, printStringLoop_char done fuel (Ne.symm hc), shown]
    by_cases hff : c = 0xFF
    · simp [hff]
    · -- the byte moves over to what has been read
      have hmove : done ++ c :: (cs ++ 0 :: tail) = (done ++ [c]) ++ (cs ++ 0 :: tail) := by simp
      have hlen : (done ++ [c]).length = done.length + 1 := by simp
      simp only [if_neg hff, emit_cons, bind_assoc]
      congr 1
      funext s
      rw [hmove, ← hlen, ih (done ++ [c]) hcs (by simp at hfuel; omega), hlen]
      simp [Ne.symm hff, Nat.add_assoc, Nat.add_comm 1]

theorem printString_eq (hnul : 0 ∉ cs) :
    printString out (cs ++ 0 :: tail) s = emit out (shown cs) s >>= fun s =>
      .ok (if 0xFF ∈ cs then eof else BitVec.ofNat 32 cs.length, s) := by
  have hfuel : cs.length < (cs ++ 0 :: tail).length + 1 := by simp
  have hloop : printStringLoop out ([] ++ (cs ++ 0 :: tail)) ((cs ++ 0 :: tail).length + 1)
      ([] : List UInt8).length s = _ := printStringLoop_eq [] hnul hfuel
  rw [List.nil_append, List.length_nil, Nat.zero_add] at hloop
  exact hloop

end Strings

section Arrays

variable {junk : ℕ → UInt8} {buffer : List UInt8} {i : ℕ}

theorem storeChar_ok {c : UInt8} (h : i < buffer.length) :
    storeChar buffer i c = .ok (buffer.set i c) := if_pos h

@[simp] theorem length_stackArray (size : ℕ) : (stackArray junk size).length = size := by
  simp [stackArray]

end Arrays

/-- The output of `print_int`. -/
def intText (junk : ℕ → UInt8) (n : CInt) : List UInt8 := written (printInt journal junk n)

/-- The output of `print_hex`. -/
def hexText (junk : ℕ → UInt8) (n : CInt) : List UInt8 := written (printHex journal junk n)

/-- The output of `print_string`. -/
def stringText (chars : List UInt8) : List UInt8 := written fun log => do
  let (_, log) ← printString journal chars log
  return log

section Texts

variable {σ : Type} {out : Console σ} {s : σ} {chars : List UInt8}

theorem written_of_emit {f : List UInt8 → Outcome (List UInt8)} {cs : List UInt8}
    (h : f [] = emit journal cs []) : written f = cs := by
  rw [written, h, emit_journal]
  rfl

/-- `print_string` for its output alone. -/
theorem printString_shown {cs tail : List UInt8} (hnul : 0 ∉ cs) {β : Type} (f : σ → Outcome β) :
    (printString out (cs ++ 0 :: tail) s >>= fun r => f r.2) = emit out (shown cs) s >>= f := by
  rw [printString_eq hnul]
  cases emit out (shown cs) s with
  | error e => rfl
  | ok s => rfl

/-- Whatever it is told to print up to a NUL, a console gets what the journal got. -/
theorem printString_text (h : 0 ∈ chars) {β : Type} (f : σ → Outcome β) :
    (printString out chars s >>= fun r => f r.2) = emit out (stringText chars) s >>= f := by
  obtain ⟨cs, tail, rfl, hnul⟩ := List.eq_append_cons_of_mem h
  have htext : stringText (cs ++ 0 :: tail) = shown cs :=
    written_of_emit ((printString_shown hnul Except.ok).trans (bind_pure _))
  rw [htext, printString_shown hnul]

end Texts

end KallarOS.Stdio
