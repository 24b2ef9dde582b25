import KallarOS.Outcome

namespace KallarOS.Stdio

abbrev CInt := BitVec 32

/-- What `vga_putchar` does to the machine. -/
abbrev Console (σ : Type) := σ → UInt8 → Outcome σ

def eof : CInt := -1

/-- `char` is signed on i386. -/
def charToInt (c : UInt8) : CInt := c.toBitVec.signExtend 32

def intToChar (i : CInt) : UInt8 := UInt8.ofBitVec (i.setWidth 8)

def ascii (c : Char) : UInt8 := UInt8.ofNat c.toNat

/-- `chars[i]`, for an array that ends where the list ends. -/
def charAt (chars : List UInt8) (i : ℕ) : Outcome UInt8 :=
  match chars[i]? with
  | some c => .ok c
  | none => .error (.fault i)

def storeChar (buffer : List UInt8) (i : ℕ) (c : UInt8) : Outcome (List UInt8) :=
  if i < buffer.length then .ok (buffer.set i c) else .error (.fault i)

/-- An array on the stack before anything is stored in it. -/
def stackArray (junk : ℕ → UInt8) (size : ℕ) : List UInt8 := (List.range size).map junk

/-- A NUL-terminated string. -/
structure CString where
  chars : List UInt8
  noNul : 0 ∉ chars

def CString.memory (s : CString) : List UInt8 := s.chars ++ [0]

/-- A variadic argument: a word, or a pointer to a string. -/
inductive Arg where
  | int (n : CInt)
  | string (s : CString)

def nextInt : List Arg → Outcome (CInt × List Arg)
  | .int n :: args => .ok (n, args)
  | _ => .error (.fault 0)

def nextString : List Arg → Outcome (List UInt8 × List Arg)
  | .string s :: args => .ok (s.memory, args)
  | _ => .error (.fault 0)

section Numerals

variable (junk : ℕ → UInt8)

def hexDigit (remainder : ℕ) : UInt8 :=
  if remainder < 10 then UInt8.ofNat (remainder + 48) else UInt8.ofNat (remainder - 10 + 65)

/-- `while (n > 0 && i >= 2)`; the counter runs down, so nine turns are enough. -/
def hexLoop : ℕ → ℕ → ℕ → List UInt8 → Outcome (ℕ × List UInt8)
  | 0, _, _, _ => .error .diverge
  | fuel + 1, n, i, buffer =>
    if 0 < n ∧ 2 ≤ i then do
      let buffer ← storeChar buffer i (hexDigit (n % 16))
      hexLoop fuel (n / 16) (i - 1) buffer
    else .ok (i, buffer)

/-- The string at `&buffer[i + 1]` that `print_hex` prints. -/
def hexBuffer (n : CInt) : Outcome (List UInt8) := do
  let buffer ← storeChar (stackArray junk 11) 0 (ascii '0')
  let buffer ← storeChar buffer 1 (ascii 'x')
  let buffer ← storeChar buffer 10 0
  let (i, buffer) ← hexLoop 9 n.toNat 9 buffer
  return buffer.drop (i + 1)

/-- `while (num > 0)`; the thirteenth store would be behind the buffer. -/
def digitLoop : ℕ → ℕ → ℕ → List UInt8 → Outcome (ℕ × List UInt8)
  | 0, _, _, _ => .error .diverge
  | fuel + 1, num, i, buffer =>
    if 0 < num then do
      let buffer ← storeChar buffer i (UInt8.ofNat (num % 10 + 48))
      digitLoop fuel (num / 10) (i + 1) buffer
    else .ok (i, buffer)

/-- `if (is_negative) buffer[i++] = '-';` -/
def putSign (n : CInt) (i : ℕ) (buffer : List UInt8) : Outcome (ℕ × List UInt8) :=
  if n.toInt < 0 then do
    let buffer ← storeChar buffer i (ascii '-')
    return (i + 1, buffer)
  else .ok (i, buffer)

/-- `while (start < end)`, with the two ends exchanged through `temp`. -/
def reverseLoop : ℕ → ℕ → ℕ → List UInt8 → Outcome (List UInt8)
  | 0, _, _, _ => .error .diverge
  | fuel + 1, start, last, buffer =>
    if start < last then do
      let temp ← charAt buffer start
      let c ← charAt buffer last
      let buffer ← storeChar buffer start c
      let buffer ← storeChar buffer last temp
      reverseLoop fuel (start + 1) (last - 1) buffer
    else .ok buffer

/-- The buffer that `print_int` prints. -/
def intBuffer (n : CInt) : Outcome (List UInt8) := do
  -- the negation wraps, so the minimum stands for its own absolute value
  let num := if n.toInt < 0 then (-n).toNat else n.toNat
  let (i, buffer) ← digitLoop 13 num 0 (stackArray junk 12)
  let (i, buffer) ← putSign n i buffer
  let buffer ← storeChar buffer i 0
  reverseLoop 12 0 (i - 1) buffer

end Numerals

section Printing

variable {σ : Type} (out : Console σ) (junk : ℕ → UInt8)

def putchar (ic : CInt) (s : σ) : Outcome (CInt × σ) := do
  let s ← out s (intToChar ic)
  return (ic, s)

def printStringLoop (chars : List UInt8) : ℕ → ℕ → σ → Outcome (CInt × σ)
  | 0, _, _ => .error .diverge
  | fuel + 1, i, s => do
    let c ← charAt chars i
    if c = 0 then .ok (BitVec.ofNat 32 i, s)
    else
      let (r, s) ← putchar out (charToInt c) s
      if r = eof then .ok (eof, s) else printStringLoop chars fuel (i + 1) s

/-- Every turn reads the next byte, so there are at most as many as bytes. -/
def printString (chars : List UInt8) (s : σ) : Outcome (CInt × σ) :=
  printStringLoop out chars (chars.length + 1) 0 s

def puts (chars : List UInt8) (s : σ) : Outcome (CInt × σ) := do
  let (count, s) ← printString out chars s
  let (_, s) ← putchar out (charToInt (ascii '\n')) s
  return (count + 1, s)

def printHex (n : CInt) (s : σ) : Outcome σ :=
  if n = 0 then do
    let (_, s) ← printString out [ascii '0', ascii 'x', ascii '0', 0] s
    return s
  else do
    let chars ← hexBuffer junk n
    let (_, s) ← printString out chars s
    return s

def printInt (n : CInt) (s : σ) : Outcome σ :=
  if n = 0 then do
    let (_, s) ← printString out [ascii '0', 0] s
    return s
  else do
    let chars ← intBuffer junk n
    let (_, s) ← printString out chars s
    return s

/-- The cases of the `switch`, apart from the end of the format. -/
def printDirective (d : UInt8) (args : List Arg) (s : σ) : Outcome (List Arg × σ) :=
  if d = ascii 'd' then do
    let (num, args) ← nextInt args
    let s ← printInt out junk num s
    return (args, s)
  else if d = ascii 'x' then do
    let (num, args) ← nextInt args
    let s ← printHex out junk num s
    return (args, s)
  else if d = ascii 's' then do
    let (str, args) ← nextString args
    let (_, s) ← printString out str s
    return (args, s)
  else if d = ascii 'c' then do
    let (num, args) ← nextInt args
    let (_, s) ← putchar out (charToInt (intToChar num)) s
    return (args, s)
  else if d = ascii '%' then do
    let (_, s) ← putchar out (charToInt (ascii '%')) s
    return (args, s)
  else do
    let (_, s) ← putchar out (charToInt (ascii '%')) s
    let (_, s) ← putchar out (charToInt d) s
    return (args, s)

/-- The `for` loop over `format[i]`, which returns early when the format ends behind a
`%`. The arguments that are left show how many were taken. -/
def printfLoop (format : List UInt8) : ℕ → ℕ → List Arg → σ → Outcome (CInt × List Arg × σ)
  | 0, _, _, _ => .error .diverge
  | fuel + 1, i, args, s => do
    let c ← charAt format i
    if c = 0 then .ok (0, args, s)
    else if c ≠ ascii '%' then
      let (_, s) ← putchar out (charToInt c) s
      printfLoop format fuel (i + 1) args s
    else
      let d ← charAt format (i + 1)
      if d = 0 then .ok (0, args, s)
      else
        let (args, s) ← printDirective out junk d args s
        printfLoop format fuel (i + 1 + 1) args s

def printf (format : List UInt8) (args : List Arg) (s : σ) : Outcome (CInt × List Arg × σ) :=
  printfLoop out junk format (format.length + 1) 0 args s

end Printing

end KallarOS.Stdio
