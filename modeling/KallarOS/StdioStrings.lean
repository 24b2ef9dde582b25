import KallarOS.StdioOutput

namespace KallarOS.Stdio

/-- A string is printed whole: `print_string` and `%s` give all its bytes to the console,
and `puts` gives it a newline after them and returns how many characters that were. -/
structure PrintsWhole (str : CString) : Prop where
  string : ∀ (σ : Type) (out : Console σ) (s : σ),
    (do let (_, s) ← printString out str.memory s; return s) = emit out str.chars s
  directive : ∀ (junk : ℕ → UInt8) (args : List Arg) (σ : Type) (out : Console σ) (s : σ),
    printDirective out junk (ascii 's') (.string str :: args) s =
      emit out str.chars s >>= fun s => .ok (args, s)
  line : ∃ count : CInt, count.toInt = str.chars.length + 1 ∧
    ∀ (σ : Type) (out : Console σ) (s : σ), puts out str.memory s =
      emit out (str.chars ++ [ascii '\n']) s >>= fun s => .ok (count, s)

section Lines

variable {σ : Type} {out : Console σ} {s : σ}

theorem printString_memory (str : CString) {β : Type} (f : σ → Outcome β) :
    (printString out str.memory s >>= fun r => f r.2) = emit out (shown str.chars) s >>= f :=
  printString_shown str.noNul f

/-- What `print_string` returns. -/
def printedCount (str : CString) : CInt :=
  if 0xFF ∈ str.chars then eof else BitVec.ofNat 32 str.chars.length

theorem puts_eq (str : CString) : puts out str.memory s =
    emit out (shown str.chars ++ [ascii '\n']) s >>= fun s => .ok (printedCount str + 1, s) := by
  rw [puts, CString.memory, printString_eq str.noNul, emit_append, bind_assoc, bind_assoc]
  congr 1
  funext s
  exact putchar_emit (ascii '\n') fun s => .ok (printedCount str + 1, s)

theorem printedCount_whole {str : CString} (hff : 0xFF ∉ str.chars)
    (hlen : str.chars.length + 1 < 2 ^ 31) :
    (printedCount str + 1).toInt = str.chars.length + 1 := by
  have hcount : printedCount str + 1 = BitVec.ofNat 32 (str.chars.length + 1) := by
    rw [printedCount, if_neg hff, BitVec.ofNat_add]
    rfl
  rw [hcount, BitVec.toInt_ofNat', Int.bmod_eq_of_le (by omega) (by omega)]
  rfl

/-- The count of `puts` fits when it is right, and it is zero behind an error. -/
theorem whole_of_printedCount {str : CString}
    (hcount : (printedCount str + 1).toInt = str.chars.length + 1) :
    0xFF ∉ str.chars ∧ str.chars.length + 1 < 2 ^ 31 := by
  constructor
  · intro hff
    have hzero : (printedCount str + 1).toInt = 0 := by
      rw [printedCount, if_pos hff]
      decide
    omega
  · have hmax := BitVec.toInt_lt (x := printedCount str + 1)
    omega

end Lines

/-- A string is printed whole just when it contains no byte 0xFF, whose sign extension
is EOF, and its length plus one is an `int`. -/
theorem prints_whole_iff (str : CString) :
    PrintsWhole str ↔ 0xFF ∉ str.chars ∧ str.chars.length + 1 < 2 ^ 31 := by
  constructor
  · intro h
    obtain ⟨count, hcount, hputs⟩ := h.line
    -- the journal shows which count it is
    have hline := hputs _ journal []
    rw [puts_eq, emit_journal, emit_journal, Outcome.ok_bind, Outcome.ok_bind] at hline
    obtain ⟨hsame, -⟩ := Prod.mk.inj (Except.ok.inj hline)
    rw [← hsame] at hcount
    exact whole_of_printedCount hcount
  · intro h
    have hshown := shown_of_notMem h.1
    constructor
    · intro σ out s
      refine (printString_memory str Except.ok).trans ?_
      rw [hshown]
      exact bind_pure _
    · intro junk args σ out s
      refine (printString_memory str fun s => .ok (args, s)).trans ?_
      rw [hshown]
    · refine ⟨printedCount str + 1, printedCount_whole h.1 h.2, fun σ out s => ?_⟩
      rw [puts_eq, hshown]

/-- A letter, the byte 0xFF and another letter. -/
def brokenString : CString := ⟨[0x41, 0xFF, 0x42], by decide⟩

theorem byte_taken_for_eof :
    printString journal brokenString.memory [] = .ok (eof, [0x41, 0xFF]) ∧
      puts journal brokenString.memory [] = .ok (0, [0x41, 0xFF, 0x0A]) ∧
      ¬PrintsWhole brokenString := by
  refine ⟨by decide, by decide, fun h => ?_⟩
  have hstring := h.string _ journal []
  rw [emit_journal] at hstring
  revert hstring
  decide

end KallarOS.Stdio
