import KallarOS.StdioBuffers
import KallarOS.VgaTerminal

namespace KallarOS.Stdio

/-- What a format string consists of. -/
inductive Piece where
  | literal (c : UInt8)
  | int | hex | string | char | percent
  | unknown (c : UInt8)
deriving Repr, DecidableEq

def directive (d : UInt8) : Piece :=
  if d = ascii 'd' then .int
  else if d = ascii 'x' then .hex
  else if d = ascii 's' then .string
  else if d = ascii 'c' then .char
  else if d = ascii '%' then .percent
  else .unknown d

/-- The pieces of a format, without its terminator; a `%` at the end is none. -/
def pieces : List UInt8 → List Piece
  | [] => []
  | [c] => if c = ascii '%' then [] else [.literal c]
  | c :: d :: cs =>
    if c = ascii '%' then directive d :: pieces cs else .literal c :: pieces (d :: cs)

inductive Kind where
  | word | pointer
deriving Repr, DecidableEq

/-- The argument a piece takes. -/
def Piece.kind : Piece → Option Kind
  | .int | .hex | .char => some .word
  | .string => some .pointer
  | .literal _ | .percent | .unknown _ => none

def Arg.kind : Arg → Kind
  | .int _ => .word
  | .string _ => .pointer

/-- One argument of the right kind for each piece that takes one. -/
def Supplies (ps : List Piece) (args : List Arg) : Prop :=
  args.map Arg.kind = ps.filterMap Piece.kind

instance (ps : List Piece) (args : List Arg) : Decidable (Supplies ps args) :=
  inferInstanceAs (Decidable (_ = _))

/-- The characters of one piece, whose argument is the next one. -/
def Piece.text (junk : ℕ → UInt8) : Piece → List Arg → List UInt8
  | .literal c, _ => [c]
  | .int, .int n :: _ => intText junk n
  | .hex, .int n :: _ => hexText junk n
  | .string, .string str :: _ => stringText str.memory
  | .char, .int n :: _ => [intToChar n]
  | .percent, _ => [ascii '%']
  | .unknown c, _ => [ascii '%', c]
  | _, _ => []

def Piece.remaining (p : Piece) (args : List Arg) : List Arg :=
  if p.kind.isSome then args.tail else args

/-- The expansion of a format: the text of piece after piece. -/
def expand (junk : ℕ → UInt8) : List Piece → List Arg → List UInt8
  | [], _ => []
  | p :: ps, args => p.text junk args ++ expand junk ps (p.remaining args)

section Directives

variable {σ : Type} {out : Console σ} {s : σ} {junk : ℕ → UInt8} {p : Piece} {ps : List Piece}
  {args : List Arg}

theorem Supplies.remaining (h : Supplies (p :: ps) args) : Supplies ps (p.remaining args) := by
  unfold Supplies at h ⊢
  unfold Piece.remaining
  cases hk : p.kind with
  | none => simpa [hk] using h
  | some k => simpa [hk, List.map_tail] using congrArg List.tail h

theorem Supplies.word (h : Supplies (p :: ps) args) (hk : p.kind = some .word) :
    ∃ n rest, args = .int n :: rest := by
  unfold Supplies at h
  rw [List.filterMap_cons_some hk] at h
  cases args with
  | nil => cases h
  | cons a rest =>
    cases a with
    | int n => exact ⟨n, rest, rfl⟩
    | string str => cases (List.cons.inj h).1

theorem Supplies.pointer (h : Supplies (p :: ps) args) (hk : p.kind = some .pointer) :
    ∃ str rest, args = .string str :: rest := by
  unfold Supplies at h
  rw [List.filterMap_cons_some hk] at h
  cases args with
  | nil => cases h
  | cons a rest =>
    cases a with
    | int n => cases (List.cons.inj h).1
    | string str => exact ⟨str, rest, rfl⟩

theorem nul_mem_memory (str : CString) : 0 ∈ str.memory := by
  simp [CString.memory]

/-- One turn through the `switch` prints the text of the piece and takes its argument. -/
theorem printDirective_eq {d : UInt8} (extra : List Arg) (h : Supplies (directive d :: ps) args) :
    printDirective out junk d (args ++ extra) s =
      emit out ((directive d).text junk args) s >>= fun s =>
        .ok ((directive d).remaining args ++ extra, s) := by
  unfold printDirective directive at *
  by_cases hd : d = ascii 'd'
  · rw [if_pos hd] at h
    obtain ⟨n, rest, rfl⟩ := h.word rfl
    simp only [if_pos hd, List.cons_append, nextInt, Outcome.ok_bind, printInt_eq]
    rfl
  by_cases hx : d = ascii 'x'
  · rw [if_neg hd, if_pos hx] at h
    obtain ⟨n, rest, rfl⟩ := h.word rfl
    simp only [if_neg hd, if_pos hx, List.cons_append, nextInt, Outcome.ok_bind, printHex_eq]
    rfl
  by_cases hs : d = ascii 's'
  · rw [if_neg hd, if_neg hx, if_pos hs] at h
    obtain ⟨str, rest, rfl⟩ := h.pointer rfl
    simp only [if_neg hd, if_neg hx, if_pos hs, List.cons_append, nextString, Outcome.ok_bind]
    exact printString_text (nul_mem_memory str) fun s => .ok (rest ++ extra, s)
  by_cases hc : d = ascii 'c'
  · rw [if_neg hd, if_neg hx, if_neg hs, if_pos hc] at h
    obtain ⟨n, rest, rfl⟩ := h.word rfl
    simp only [if_neg hd, if_neg hx, if_neg hs, if_pos hc, List.cons_append, nextInt,
      Outcome.ok_bind]
    exact putchar_emit (intToChar n) fun s => .ok (rest ++ extra, s)
  by_cases hp : d = ascii '%'
  · simp only [if_neg hd, if_neg hx, if_neg hs, if_neg hc, if_pos hp]
    exact putchar_emit (ascii '%') fun s => .ok (args ++ extra, s)
  · simp only [if_neg hd, if_neg hx, if_neg hs, if_neg hc, if_neg hp]
    refine (putchar_emit (ascii '%') fun s => putchar out (charToInt d) s >>= fun r =>
      .ok (args ++ extra, r.2)).trans ?_
    have hd' : ∀ s, (putchar out (charToInt d) s >>= fun r => Except.ok (args ++ extra, r.2)) =
        emit out [d] s >>= fun s => .ok (args ++ extra, s) :=
      fun s => putchar_emit d fun s => .ok (args ++ extra, s)
    simp only [hd', ← bind_assoc, ← emit_append]
    rfl

end Directives

section Loop

variable {σ : Type} {out : Console σ} {s : σ} {junk : ℕ → UInt8} {args : List Arg} {c d : UInt8}
  {tail : List UInt8} {fuel : ℕ}

theorem printfLoop_nul (done : List UInt8) :
    printfLoop out junk (done ++ 0 :: tail) (fuel + 1) done.length args s = .ok (0, args, s) := by
  rw [printfLoop, charAt_append, Outcome.ok_bind, if_pos rfl]

theorem printfLoop_literal (done : List UInt8) (hc : c ≠ 0) (hp : c ≠ ascii '%') :
    printfLoop out junk (done ++ c :: tail) (fuel + 1) done.length args s =
      emit out [c] s >>= printfLoop out junk (done ++ c :: tail) fuel (done.length + 1) args := by
  rw [printfLoop, charAt_append, Outcome.ok_bind, if_neg hc, if_pos hp]
  exact putchar_emit c (printfLoop out junk (done ++ c :: tail) fuel (done.length + 1) args)

theorem printfLoop_percent (done : List UInt8) :
    printfLoop out junk (done ++ ascii '%' :: d :: tail) (fuel + 1) done.length args s =
      if d = 0 then .ok (0, args, s)
      else printDirective out junk d args s >>= fun r =>
        printfLoop out junk (done ++ ascii '%' :: d :: tail) fuel (done.length + 1 + 1) r.1 r.2 := by
  have hnext : charAt (done ++ ascii '%' :: d :: tail) (done.length + 1) = .ok d := by
    have hread := charAt_append (done ++ [ascii '%']) tail d
    rwa [List.append_assoc, List.length_append] at hread
  rw [printfLoop, charAt_append, Outcome.ok_bind, if_neg (by decide), if_neg (not_not_intro rfl),
    hnext]
  rfl

/-- A literal, given what the loop does from the next character on. -/
theorem printfLoop_literal_then (done cs : List UInt8) (extra : List Arg) {ps : List Piece}
    (hc : c ≠ 0) (hp : c ≠ ascii '%')
    (hrest : ∀ s, printfLoop out junk ((done ++ [c]) ++ (cs ++ [0])) fuel (done ++ [c]).length
      (args ++ extra) s = emit out (expand junk ps args) s >>= fun s => .ok (0, extra, s)) :
    printfLoop out junk (done ++ (c :: cs ++ [0])) (fuel + 1) done.length (args ++ extra) s =
      emit out (expand junk (.literal c :: ps) args) s >>= fun s => .ok (0, extra, s) := by
  have hmove : done ++ c :: (cs ++ [0]) = (done ++ [c]) ++ (cs ++ [0]) := by simp
  rw [List.cons_append, printfLoop_literal done hc hp, expand, emit_append, bind_assoc, hmove]
  congr 1
  funext s
  rw [List.length_append] at hrest
  exact hrest s

/-- The loop from behind `done` on, with the arguments for the rest of the format. -/
theorem printfLoop_eq (cs done : List UInt8) (extra : List Arg) (hnul : 0 ∉ cs)
    (hargs : Supplies (pieces cs) args) (hfuel : cs.length ≤ fuel) :
    printfLoop out junk (done ++ (cs ++ [0])) (fuel + 1) done.length (args ++ extra) s =
      emit out (expand junk (pieces cs) args) s >>= fun s => .ok (0, extra, s) := by
  induction cs using pieces.induct generalizing done fuel args s with
  | case1 =>
    rw [List.map_eq_nil_iff.mp hargs]
    exact printfLoop_nul done
  | case2 =>
    rw [List.map_eq_nil_iff.mp hargs]
    exact (printfLoop_percent done).trans (if_pos rfl)
  | case3 c hp =>
    obtain ⟨fuel, rfl⟩ : ∃ k, fuel = k + 1 := ⟨fuel - 1, by simp at hfuel; omega⟩
    rw [pieces, if_neg hp] at hargs ⊢
    rw [List.map_eq_nil_iff.mp hargs]
    apply printfLoop_literal_then done [] extra (by simpa [eq_comm] using hnul) hp
    intro s
    exact printfLoop_nul (done ++ [c])
  | case4 d cs ih =>
    obtain ⟨fuel, rfl⟩ : ∃ k, fuel = k + 1 := ⟨fuel - 1, by simp at hfuel; omega⟩
    have hnul' : d ≠ 0 ∧ 0 ∉ cs := by
      simp only [List.mem_cons, not_or] at hnul
      exact ⟨Ne.symm hnul.2.1, hnul.2.2⟩
    have hmove : done ++ ascii '%' :: d :: (cs ++ [0]) = (done ++ [ascii '%', d]) ++ (cs ++ [0]) := by
      simp
    have hlen : (done ++ [ascii '%', d]).length = done.length + 1 + 1 := by simp
    rw [pieces, if_pos rfl] at hargs ⊢
    rw [List.cons_append, List.cons_append, printfLoop_percent done, if_neg hnul'.1,
      printDirective_eq extra hargs, expand, emit_append, bind_assoc, bind_assoc, hmove, ← hlen]
    congr 1
    funext s
    exact ih (done ++ [ascii '%', d]) hnul'.2 hargs.remaining (by simp at hfuel; omega)
  | case5 c d cs hp ih =>
    obtain ⟨fuel, rfl⟩ : ∃ k, fuel = k + 1 := ⟨fuel - 1, by simp at hfuel; omega⟩
    have hnul' : c ≠ 0 ∧ 0 ∉ d :: cs := by simpa [eq_comm] using hnul
    rw [pieces, if_neg hp] at hargs ⊢
    apply printfLoop_literal_then done (d :: cs) extra hnul'.1 hp
    intro s
    exact ih (done ++ [c]) hnul'.2 hargs.remaining (by simpa using hfuel)

theorem printf_eq (junk : ℕ → UInt8) (format : CString) (extra : List Arg)
    (hargs : Supplies (pieces format.chars) args) :
    printf out junk format.memory (args ++ extra) s =
      emit out (expand junk (pieces format.chars) args) s >>= fun s => .ok (0, extra, s) := by
  have hfuel : format.chars.length ≤ format.memory.length := by simp [CString.memory]
  have hloop : printfLoop out junk ([] ++ (format.chars ++ [0])) (format.memory.length + 1)
      ([] : List UInt8).length (args ++ extra) s = _ :=
    printfLoop_eq format.chars [] extra format.noNul hargs hfuel
  rw [List.nil_append] at hloop
  exact hloop

end Loop

/-- Characters that go to the screen one after the other appear on the terminal. -/
theorem emit_screen {v : Vga.VgaState} {t : Vga.Terminal} (h : Vga.Shows v t) (cs : List UInt8) :
    ∃ v', emit Vga.vgaPutchar cs v = .ok v' ∧ Vga.Shows v' (cs.foldl Vga.Terminal.put t) := by
  induction cs generalizing v t with
  | nil => exact ⟨v, rfl, h⟩
  | cons c cs ih =>
    obtain ⟨v₁, hput, h₁, -⟩ := h.putchar c
    obtain ⟨v', hrest, h'⟩ := ih h₁
    exact ⟨v', by rw [emit_cons, hput, Outcome.ok_bind, hrest], h'⟩

/-- For every format and arguments of the right kinds `printf` gives the expansion to
the console, character by character, and takes one argument for each directive that
has one. A read behind the terminator would fault. On the screen it returns and the
terminal shows the expansion. -/
theorem printf_expands (junk : ℕ → UInt8) (format : CString) (args extra : List Arg)
    (hargs : Supplies (pieces format.chars) args) :
    (∀ (σ : Type) (out : Console σ) (s : σ),
        printf out junk format.memory (args ++ extra) s =
          emit out (expand junk (pieces format.chars) args) s >>= fun s => .ok (0, extra, s)) ∧
      printf journal junk format.memory (args ++ extra) [] =
        .ok (0, extra, expand junk (pieces format.chars) args) ∧
      ∀ v t, Vga.Shows v t → ∃ v',
        printf Vga.vgaPutchar junk format.memory (args ++ extra) v = .ok (0, extra, v') ∧
          Vga.Shows v' ((expand junk (pieces format.chars) args).foldl Vga.Terminal.put t) := by
  refine ⟨fun σ out s => printf_eq junk format extra hargs, ?_, fun v t h => ?_⟩
  · rw [printf_eq junk format extra hargs, emit_journal]
    rfl
  · obtain ⟨v', hemit, h'⟩ := emit_screen h (expand junk (pieces format.chars) args)
    exact ⟨v', by rw [printf_eq junk format extra hargs, hemit]; rfl, h'⟩

/-- `"%d%%%z%"` with one argument. -/
def sampleFormat : CString :=
  ⟨[ascii '%', ascii 'd', ascii '%', ascii '%', ascii '%', ascii 'z', ascii '%'], by decide⟩

theorem printf_expands_sample :
    printf journal (fun _ => 7) sampleFormat.memory [.int (-42)] [] =
      .ok (0, [], [ascii '-', ascii '4', ascii '2', ascii '%', ascii '%', ascii 'z']) := by
  have hprintf := (printf_expands (fun _ => 7) sampleFormat [.int (-42)] [] (by decide)).2.1
  have htext : expand (fun _ => 7) (pieces sampleFormat.chars) [.int (-42)] =
      [ascii '-', ascii '4', ascii '2', ascii '%', ascii '%', ascii 'z'] := by decide
  rwa [htext] at hprintf

end KallarOS.Stdio
