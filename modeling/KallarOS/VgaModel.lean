import KallarOS.Outcome

namespace KallarOS.Vga
open Outcome

/-- `vga_color_t`, the FB_ constants. -/
inductive VgaColor where
  | black | blue | green | cyan | red | magenta | brown | lightGrey
  | darkGrey | lightBlue | lightGreen | lightCyan | lightRed | lightMagenta | yellow | white
deriving Repr, DecidableEq

def VgaColor.code : VgaColor → UInt8
  | black => 0
  | blue => 1
  | green => 2
  | cyan => 3
  | red => 4
  | magenta => 5
  | brown => 6
  | lightGrey => 7
  | darkGrey => 8
  | lightBlue => 9
  | lightGreen => 10
  | lightCyan => 11
  | lightRed => 12
  | lightMagenta => 13
  | yellow => 14
  | white => 15

/-- The framebuffer with the variables of the driver and the CRT controller, whose
registers are written through an index port and a data port. -/
structure VgaState where
  fb : ℕ → UInt8
  cursorPos : ℕ
  currentColor : UInt8
  crtcIndex : UInt8
  crtc : UInt8 → UInt8

def fbBase : ℕ := 0x000B8000 + 0xC0000000

def fbSize : ℕ := 4000

def fbLoad (v : VgaState) (i : ℕ) : Outcome UInt8 :=
  if i < fbSize then .ok (v.fb i) else .error (.fault (fbBase + i))

def fbStore (v : VgaState) (i : ℕ) (b : UInt8) : Outcome VgaState :=
  if i < fbSize then .ok { v with fb := Function.update v.fb i b }
  else .error (.fault (fbBase + i))

def fbCommandPort : ℕ := 0x3D4
def fbDataPort : ℕ := 0x3D5
def fbHighByteCommand : UInt8 := 14
def fbLowByteCommand : UInt8 := 15

def outb (v : VgaState) (port : ℕ) (data : UInt8) : VgaState :=
  if port = fbCommandPort then { v with crtcIndex := data }
  else if port = fbDataPort then { v with crtc := Function.update v.crtc v.crtcIndex data }
  else v

def vgaSetColor (v : VgaState) (fg bg : VgaColor) : VgaState :=
  { v with currentColor := fg.code ||| (bg.code <<< 4) }

def fbWriteCell (v : VgaState) (i : ℕ) (c fg bg : UInt8) : Outcome VgaState := do
  let v ← fbStore v i c
  fbStore v ((i + 1) % 2 ^ 32) (((bg &&& 0x0F) <<< 4) ||| (fg &&& 0x0F))

/-- The position goes to the controller as a 16-bit cell number. -/
def fbMoveCursor (v : VgaState) (pos : ℕ) : VgaState :=
  let v := outb v fbCommandPort fbHighByteCommand
  let v := outb v fbDataPort (UInt8.ofNat (pos % 2 ^ 16 / 2 ^ 8))
  let v := outb v fbCommandPort fbLowByteCommand
  outb v fbDataPort (UInt8.ofNat (pos % 2 ^ 16))

def newlineChar : UInt8 := 10
def returnChar : UInt8 := 13
def spaceChar : UInt8 := 32

/-- One turn of the loop that moves the rows up. -/
def copyByte (i : ℕ) (v : VgaState) : Outcome VgaState := do
  let b ← fbLoad v (i + 160)
  fbStore v i b

/-- One turn of the loop that blanks the last row, on the byte pair at `3840 + 2 k`. -/
def blankCell (k : ℕ) (v : VgaState) : Outcome VgaState := do
  let v ← fbStore v (3840 + 2 * k) spaceChar
  fbStore v (3840 + 2 * k + 1) 0x0F

def scroll (v : VgaState) : Outcome VgaState := do
  let v ← forRange 3840 copyByte v
  let v ← forRange 80 blankCell v
  return { v with cursorPos := 3840 }

/-- What the character itself does, before the bottom of the screen is checked. -/
def placeChar (v : VgaState) (c : UInt8) : Outcome VgaState :=
  if c = newlineChar then
    .ok { v with cursorPos := (v.cursorPos / 160 + 1) * 160 % 2 ^ 32 }
  else if c = returnChar then
    .ok { v with cursorPos := v.cursorPos / 160 * 160 }
  else do
    let v ← fbStore v v.cursorPos c
    let v ← fbStore v ((v.cursorPos + 1) % 2 ^ 32) v.currentColor
    return { v with cursorPos := (v.cursorPos + 2) % 2 ^ 32 }

def vgaPutchar (v : VgaState) (c : UInt8) : Outcome VgaState := do
  let v ← placeChar v c
  -- 80 columns of two bytes in 25 rows
  let v ← if 4000 ≤ v.cursorPos then scroll v else pure v
  return fbMoveCursor v (v.cursorPos / 2)

def vgaClearScreen (v : VgaState) : Outcome VgaState := do
  let v ← forRange (80 * 25)
    (fun i v => fbWriteCell v (i * 2) spaceChar VgaColor.white.code VgaColor.black.code) v
  let v := { v with cursorPos := 0 }
  return fbMoveCursor v 0

end KallarOS.Vga
