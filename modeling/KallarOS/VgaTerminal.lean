import KallarOS.VgaModel

namespace KallarOS.Vga
open Outcome

section Reference

/-- A character with its colours. -/
structure Cell where
  char : UInt8
  attr : UInt8
deriving Repr, DecidableEq

def Cell.blank : Cell := ⟨spaceChar, 0x0F⟩

abbrev Row := Fin 80 → Cell

def blankRow : Row := fun _ => .blank

/-- A terminal that never forgets a row: those above the current one, oldest first. -/
structure Terminal where
  finished : List Row
  current : Row
  column : Fin 80
  color : UInt8

namespace Terminal

def start (color : UInt8) : Terminal := ⟨[], blankRow, 0, color⟩

def rows (t : Terminal) : List Row := t.finished ++ [t.current]

def newline (t : Terminal) : Terminal :=
  { t with finished := t.rows, current := blankRow, column := 0 }

/-- Overwrite the cell under the cursor. -/
def write (t : Terminal) (c : UInt8) : Terminal :=
  { t with current := Function.update t.current t.column ⟨c, t.color⟩ }

def put (t : Terminal) (c : UInt8) : Terminal :=
  if c = newlineChar then t.newline
  else if c = returnChar then { t with column := 0 }
  else if h : t.column.val + 1 < 80 then { t.write c with column := ⟨t.column.val + 1, h⟩ }
  else (t.write c).newline

def setColor (t : Terminal) (fg bg : VgaColor) : Terminal :=
  { t with color := fg.code ||| (bg.code <<< 4) }

/-- The last 25 rows; below the current one they are blank. -/
def screen (t : Terminal) (r : Fin 25) : Row := t.rows.getD (t.rows.length - 25 + r) blankRow

/-- The screen row of the cursor. -/
def bottom (t : Terminal) : ℕ := min t.finished.length 24

variable (t : Terminal)

theorem bottom_lt : t.bottom < 25 := by
  unfold bottom
  omega

theorem getD_rows (i : ℕ) : t.rows.getD i blankRow =
    if i < t.finished.length then t.finished.getD i blankRow
    else if i = t.finished.length then t.current else blankRow := by
  unfold rows
  split_ifs with h1 h2
  · rw [List.getD_append _ _ _ _ h1]
  · rw [List.getD_append_right _ _ _ _ (by omega), h2, Nat.sub_self]
    rfl
  · exact List.getD_eq_default _ _ (by simp; omega)

theorem screen_eq (r : Fin 25) : t.screen r =
    if r.val < t.bottom then t.finished.getD (t.finished.length - 24 + r) blankRow
    else if r.val = t.bottom then t.current else blankRow := by
  have hlen : t.rows.length - 25 + r = t.finished.length - 24 + r := by simp [rows]
  have hr := r.isLt
  have h1 : t.finished.length - 24 + r < t.finished.length ↔ r.val < t.bottom := by
    unfold bottom
    omega
  have h2 : t.finished.length - 24 + r = t.finished.length ↔ r.val = t.bottom := by
    unfold bottom
    omega
  rw [screen, hlen, getD_rows]
  simp only [h1, h2]

theorem screen_write (c : UInt8) (r : Fin 25) : (t.write c).screen r =
    if r.val = t.bottom then Function.update t.current t.column ⟨c, t.color⟩ else t.screen r := by
  rw [screen_eq, screen_eq]
  change (if r.val < t.bottom then _ else if r.val = t.bottom then _ else _) = _
  split_ifs with h1 h2
  · omega
  · rfl
  · rfl
  · rfl

theorem screen_bottom {r : Fin 25} (h : r.val = t.bottom) : t.screen r = t.current := by
  rw [screen_eq, if_neg (by omega), if_pos h]

/-- While the screen is not full a new row changes nothing on it. -/
theorem screen_newline_of_lt (h : t.finished.length < 24) (r : Fin 25) :
    t.newline.screen r = t.screen r := by
  have hlen : t.newline.rows.length - 25 + r = t.rows.length - 25 + r := by
    simp [rows, newline]
    omega
  have hrow : t.newline.rows = t.rows ++ [blankRow] := rfl
  rw [screen, screen, hlen, hrow]
  by_cases hr : t.rows.length - 25 + r < t.rows.length
  · rw [List.getD_append _ _ _ _ hr]
  · rw [List.getD_append_right _ _ _ _ (by omega), List.getD_eq_default t.rows _ (by omega)]
    cases t.rows.length - 25 + r - t.rows.length with
    | zero => rfl
    | succ k => rfl

/-- On a full screen it moves every row up and leaves a blank one at the bottom. -/
theorem screen_newline_of_ge (h : 24 ≤ t.finished.length) (r : Fin 25) :
    t.newline.screen r = if h : r.val + 1 < 25 then t.screen ⟨r.val + 1, h⟩ else blankRow := by
  have hr := r.isLt
  have hrow : t.newline.rows = t.rows ++ [blankRow] := rfl
  have hlen : t.rows.length = t.finished.length + 1 := by simp [rows]
  have hlen' : t.newline.rows.length = t.finished.length + 2 := by simp [hrow, hlen]
  split_ifs with hlt
  · have hidx : t.finished.length + 2 - 25 + r.val = t.finished.length + 1 - 25 + (r.val + 1) := by
      omega
    rw [screen, screen, hlen', hlen, hidx, hrow]
    exact List.getD_append _ _ _ _ (by omega)
  · rw [screen, hlen', hrow, List.getD_append_right _ _ _ _ (by omega)]
    have hidx : t.finished.length + 2 - 25 + r.val - t.rows.length = 0 := by omega
    rw [hidx]
    rfl

end Terminal

end Reference

section Display

/-- What the screen shows in row `r` and column `c`. -/
def cell (v : VgaState) (r : Fin 25) (c : Fin 80) : Cell :=
  ⟨v.fb (160 * r + 2 * c), v.fb (160 * r + 2 * c + 1)⟩

/-- Where the controller has the cursor. -/
def position (v : VgaState) : ℕ :=
  256 * (v.crtc fbHighByteCommand).toNat + (v.crtc fbLowByteCommand).toNat

variable (v : VgaState)

@[simp] theorem fb_fbMoveCursor (pos : ℕ) : (fbMoveCursor v pos).fb = v.fb := rfl

@[simp] theorem cursorPos_fbMoveCursor (pos : ℕ) :
    (fbMoveCursor v pos).cursorPos = v.cursorPos := rfl

@[simp] theorem currentColor_fbMoveCursor (pos : ℕ) :
    (fbMoveCursor v pos).currentColor = v.currentColor := rfl

theorem crtc_fbMoveCursor (pos : ℕ) : (fbMoveCursor v pos).crtc =
    Function.update (Function.update v.crtc fbHighByteCommand
      (UInt8.ofNat (pos % 2 ^ 16 / 2 ^ 8))) fbLowByteCommand (UInt8.ofNat (pos % 2 ^ 16)) := rfl

theorem position_fbMoveCursor {pos : ℕ} (h : pos < 2 ^ 16) :
    position (fbMoveCursor v pos) = pos := by
  have hne : fbHighByteCommand ≠ fbLowByteCommand := by decide
  rw [position, crtc_fbMoveCursor, Function.update_self, Function.update_of_ne hne,
    Function.update_self, UInt8.toNat_ofNat', UInt8.toNat_ofNat']
  omega

/-- The first `n` bytes replaced by those a row further on. -/
def movedUp (n : ℕ) : VgaState :=
  { v with fb := fun j => if j < n then v.fb (j + 160) else v.fb j }

/-- The copy reads every byte before it overwrites it: it runs upwards and reads ahead. -/
theorem forRange_copyByte {n : ℕ} (hn : n ≤ 3840) :
    forRange n copyByte v = .ok (movedUp v n) := by
  induction n with
  | zero =>
    have : movedUp v 0 = v := by simp [movedUp]
    rw [forRange, this]
  | succ n ih =>
    -- byte `n + 160` is ahead of all bytes overwritten so far
    have hload : fbLoad (movedUp v n) (n + 160) = .ok (v.fb (n + 160)) := by
      rw [fbLoad, if_pos (by unfold fbSize; omega), movedUp]
      simp
    have hstore : fbStore (movedUp v n) n (v.fb (n + 160)) = .ok (movedUp v (n + 1)) := by
      rw [fbStore, if_pos (by unfold fbSize; omega)]
      apply congrArg
      simp only [movedUp, VgaState.mk.injEq, and_true]
      funext j
      by_cases hj : j = n
      · simp [hj]
      · rw [Function.update_of_ne hj]
        have : j < n ↔ j < n + 1 := by omega
        simp only [this]
    rw [forRange, ih (by omega), ok_bind, copyByte, hload, ok_bind, hstore]

/-- Blank cells in the `n` byte pairs from `base` on. -/
def blanked (base n : ℕ) : VgaState :=
  { v with
    fb := fun j => if base ≤ j ∧ j < base + 2 * n then
      (if (j - base) % 2 = 0 then spaceChar else 0x0F) else v.fb j }

/-- Both loops that blank cells write the same two bytes in every turn. -/
theorem forRange_blanks {body : ℕ → VgaState → Outcome VgaState} (base : ℕ) {n : ℕ}
    (hbody : ∀ k < n, ∀ v, body k v =
      fbStore v (base + 2 * k) spaceChar >>= fun v => fbStore v (base + 2 * k + 1) 0x0F)
    (hn : base + 2 * n ≤ 4000) : forRange n body v = .ok (blanked v base n) := by
  induction n with
  | zero =>
    have : blanked v base 0 = v := by
      simp only [blanked, Nat.mul_zero, Nat.add_zero]
      have : ∀ j, ¬ (base ≤ j ∧ j < base) := fun j => by omega
      simp only [this, if_false]
    rw [forRange, this]
  | succ n ih =>
    rw [forRange, ih (fun k hk => hbody k (by omega)) (by omega), ok_bind, hbody n (by omega),
      fbStore, if_pos (by unfold fbSize; omega), ok_bind, fbStore, if_pos (by unfold fbSize; omega)]
    apply congrArg
    simp only [blanked, VgaState.mk.injEq, and_true]
    funext j
    -- the attribute byte is written last
    by_cases h1 : j = base + 2 * n + 1
    · subst h1
      rw [Function.update_self, if_pos (by omega), if_neg (by omega)]
    · rw [Function.update_of_ne h1]
      by_cases h0 : j = base + 2 * n
      · subst h0
        rw [Function.update_self, if_pos (by omega), if_pos (by omega)]
      · rw [Function.update_of_ne h0]
        have : (base ≤ j ∧ j < base + 2 * n) ↔ (base ≤ j ∧ j < base + 2 * (n + 1)) := by omega
        simp only [this]

/-- Scrolling moves the rows up and blanks the last one. -/
theorem scroll_ok : ∃ v', scroll v = .ok v' ∧ v'.cursorPos = 3840 ∧
    v'.currentColor = v.currentColor ∧
    ∀ r c, cell v' r c = if h : r.val + 1 < 25 then cell v ⟨r.val + 1, h⟩ c else .blank := by
  have hblank : forRange 80 blankCell (movedUp v 3840) =
      .ok (blanked (movedUp v 3840) 3840 80) :=
    forRange_blanks _ 3840 (fun _ _ _ => rfl) (by decide)
  refine ⟨{ blanked (movedUp v 3840) 3840 80 with cursorPos := 3840 }, ?_, rfl, rfl, ?_⟩
  · rw [scroll, forRange_copyByte v le_rfl, ok_bind, hblank, ok_bind]
    rfl
  · intro r c
    have hr := r.isLt
    have hc := c.isLt
    simp only [cell, blanked, movedUp]
    by_cases hlt : r.val + 1 < 25
    · rw [dif_pos hlt, if_neg (by omega), if_pos (by omega), if_neg (by omega), if_pos (by omega)]
      simp only [Cell.mk.injEq]
      exact ⟨congrArg v.fb (by omega), congrArg v.fb (by omega)⟩
    · rw [dif_neg hlt, if_pos (by omega), if_pos (by omega), if_pos (by omega), if_neg (by omega),
        Cell.blank]

/-- The two stores of an ordinary character fill one cell and no other. -/
theorem cell_update {v' : VgaState} {row : ℕ} (col : Fin 80) (c attr : UInt8)
    (h : v'.fb = Function.update (Function.update v.fb (160 * row + 2 * col) c)
      (160 * row + 2 * col + 1) attr) (r : Fin 25) (k : Fin 80) :
    cell v' r k = if r.val = row ∧ k = col then ⟨c, attr⟩ else cell v r k := by
  have hk := k.isLt
  have hcol := col.isLt
  rw [cell, h]
  by_cases hat : r.val = row ∧ k = col
  · obtain ⟨rfl, rfl⟩ := hat
    rw [if_pos ⟨rfl, rfl⟩, Function.update_self, Function.update_of_ne (by omega),
      Function.update_self]
  · rw [if_neg hat]
    -- columns are below 80, so an offset has one row and one column
    have hne : 160 * r.val + 2 * k.val ≠ 160 * row + 2 * col.val := by
      intro he
      apply hat
      exact ⟨by omega, Fin.ext (by omega)⟩
    rw [Function.update_of_ne (by omega), Function.update_of_ne hne,
      Function.update_of_ne (by omega), Function.update_of_ne (by omega), cell]

end Display

section Refinement

/-- The framebuffer has the screen of the terminal, and the driver its cursor and colour. -/
structure Shows (v : VgaState) (t : Terminal) : Prop where
  cells : ∀ r c, cell v r c = t.screen r c
  cursor : v.cursorPos = 160 * t.bottom + 2 * t.column
  color : v.currentColor = t.color

variable {v : VgaState} {t : Terminal}

theorem Shows.cursor_lt (h : Shows v t) : v.cursorPos < 4000 := by
  have h1 := t.bottom_lt
  have h2 := t.column.isLt
  rw [h.cursor]
  omega

theorem Shows.moveCursor (h : Shows v t) (pos : ℕ) : Shows (fbMoveCursor v pos) t where
  cells := h.cells
  cursor := h.cursor
  color := h.color

theorem Shows.setColor (h : Shows v t) (fg bg : VgaColor) :
    Shows (vgaSetColor v fg bg) (t.setColor fg bg) where
  cells := h.cells
  cursor := h.cursor
  color := rfl

/-- A cursor on the row after the current one, which may be the one below the screen. -/
theorem newline_ok (hcells : ∀ r c, cell v r c = t.screen r c)
    (hcolor : v.currentColor = t.color) (hcursor : v.cursorPos = 160 * (t.bottom + 1)) :
    ∃ v', (if 4000 ≤ v.cursorPos then scroll v else pure v) = .ok v' ∧ Shows v' t.newline := by
  have hlen : t.newline.finished.length = t.finished.length + 1 := by
    simp [Terminal.newline, Terminal.rows]
  -- the driver scrolls exactly when the terminal has filled 25 rows
  by_cases hfull : 24 ≤ t.finished.length
  · have hb : t.bottom = 24 := Nat.min_eq_right hfull
    have hb' : t.newline.bottom = 24 := Nat.min_eq_right (by omega)
    obtain ⟨v', hv', hpos, hcol, hcell⟩ := scroll_ok v
    refine ⟨v', ?_, ?_, ?_, ?_⟩
    · rw [if_pos (by omega), hv']
    · intro r c
      rw [hcell, t.screen_newline_of_ge hfull]
      split_ifs with hr
      · exact hcells _ _
      · rfl
    · rw [hpos, hb']
      rfl
    · exact hcol.trans hcolor
  · have hb : t.bottom = t.finished.length := Nat.min_eq_left (by omega)
    have hb' : t.newline.bottom = t.finished.length + 1 := by
      rw [Terminal.bottom, hlen]
      omega
    refine ⟨v, ?_, ?_, ?_, hcolor⟩
    · rw [if_neg (by omega)]
      rfl
    · intro r c
      rw [hcells, t.screen_newline_of_lt (by omega)]
    · rw [hcursor, hb, hb']
      rfl

/-- The two stores of an ordinary character, as the terminal does them. -/
theorem Shows.write (h : Shows v t) (c : UInt8) : ∃ v₁,
    (fbStore v v.cursorPos c >>= fun v =>
      fbStore v ((v.cursorPos + 1) % 2 ^ 32) v.currentColor) = .ok v₁ ∧
      (∀ r k, cell v₁ r k = (t.write c).screen r k) ∧ v₁.currentColor = t.color ∧
      v₁.cursorPos = v.cursorPos := by
  have hlt := h.cursor_lt
  have heven : v.cursorPos % 2 = 0 := by
    rw [h.cursor]
    omega
  have hmod : (v.cursorPos + 1) % 2 ^ 32 = v.cursorPos + 1 := Nat.mod_eq_of_lt (by omega)
  let fb := Function.update (Function.update v.fb v.cursorPos c) (v.cursorPos + 1) v.currentColor
  refine ⟨{ v with fb := fb }, ?_, ?_, h.color, rfl⟩
  · rw [fbStore, if_pos (by unfold fbSize; omega), ok_bind]
    simp only [hmod]
    rw [fbStore, if_pos (by unfold fbSize; omega)]
  · intro r k
    have hfb : fb = Function.update (Function.update v.fb (160 * t.bottom + 2 * t.column) c)
        (160 * t.bottom + 2 * t.column + 1) v.currentColor := by
      simp only [fb, h.cursor]
    rw [cell_update v t.column c v.currentColor hfb, h.color, t.screen_write, h.cells]
    by_cases hr : r.val = t.bottom
    · rw [if_pos hr, t.screen_bottom hr]
      by_cases hk : k = t.column
      · rw [if_pos ⟨hr, hk⟩, hk, Function.update_self]
      · rw [if_neg (fun h => hk h.2), Function.update_of_ne hk]
    · rw [if_neg hr, if_neg (fun h => hr h.1)]

/-- One character, up to the call that moves the hardware cursor. -/
theorem Shows.place (h : Shows v t) (c : UInt8) : ∃ v₁ v₂, placeChar v c = .ok v₁ ∧
    (if 4000 ≤ v₁.cursorPos then scroll v₁ else pure v₁) = .ok v₂ ∧ Shows v₂ (t.put c) := by
  have hcol := t.column.isLt
  have hbot := t.bottom_lt
  have hcursor := h.cursor
  have hrow : v.cursorPos / 160 = t.bottom := by omega
  by_cases hn : c = newlineChar
  · obtain ⟨v₂, hv₂, hs⟩ := newline_ok (v := { v with cursorPos := 160 * (t.bottom + 1) })
      h.cells h.color rfl
    refine ⟨{ v with cursorPos := 160 * (t.bottom + 1) }, v₂, ?_, hv₂, ?_⟩
    · rw [placeChar, if_pos hn, hrow, Nat.mod_eq_of_lt (by omega), Nat.mul_comm]
    · rwa [Terminal.put, if_pos hn]
  · by_cases hr : c = returnChar
    · let v₁ : VgaState := { v with cursorPos := t.bottom * 160 }
      refine ⟨v₁, v₁, ?_, ?_, ?_⟩
      · rw [placeChar, if_neg hn, if_pos hr, hrow]
      · rw [if_neg (show ¬ 4000 ≤ t.bottom * 160 by omega)]
        rfl
      · rw [Terminal.put, if_neg hn, if_pos hr]
        exact ⟨h.cells, Nat.mul_comm _ _, h.color⟩
    · obtain ⟨v₁, hv₁, hcells, hcolor, hpos⟩ := h.write c
      have hplace : placeChar v c = .ok { v₁ with cursorPos := v.cursorPos + 2 } := by
        rw [placeChar, if_neg hn, if_neg hr, ← bind_assoc, hv₁, ok_bind, hpos,
          Nat.mod_eq_of_lt (by omega)]
        rfl
      rw [Terminal.put, if_neg hn, if_neg hr]
      -- the 80th cell of a row starts the next one
      split_ifs with hlast
      · refine ⟨{ v₁ with cursorPos := v.cursorPos + 2 }, { v₁ with cursorPos := v.cursorPos + 2 },
          hplace, ?_, hcells, ?_, hcolor⟩
        · rw [if_neg (by dsimp only; omega)]
          rfl
        · change v.cursorPos + 2 = 160 * t.bottom + 2 * (t.column.val + 1)
          omega
      · obtain ⟨v₂, hv₂, hs⟩ := newline_ok (v := { v₁ with cursorPos := v.cursorPos + 2 })
          (t := t.write c) hcells hcolor (by
            change v.cursorPos + 2 = 160 * (t.bottom + 1)
            omega)
        exact ⟨{ v₁ with cursorPos := v.cursorPos + 2 }, v₂, hplace, hv₂, hs⟩

theorem Shows.putchar (h : Shows v t) (c : UInt8) : ∃ v', vgaPutchar v c = .ok v' ∧
    Shows v' (t.put c) ∧ position v' = v'.cursorPos / 2 := by
  obtain ⟨v₁, v₂, h₁, h₂, hs⟩ := h.place c
  have hlt := hs.cursor_lt
  refine ⟨fbMoveCursor v₂ (v₂.cursorPos / 2), ?_, hs.moveCursor _, ?_⟩
  · rw [vgaPutchar, h₁, ok_bind]
    by_cases hfull : 4000 ≤ v₁.cursorPos
    · rw [if_pos hfull] at h₂
      rw [if_pos hfull, h₂]
      rfl
    · rw [if_neg hfull] at h₂
      cases h₂
      rw [if_neg hfull]
      rfl
  · exact position_fbMoveCursor v₂ (by omega)

theorem clearScreen_ok (v : VgaState) : ∃ v', vgaClearScreen v = .ok v' ∧
    Shows v' (.start v.currentColor) ∧ position v' = v'.cursorPos / 2 := by
  have hblank : forRange (80 * 25)
      (fun i v => fbWriteCell v (i * 2) spaceChar VgaColor.white.code VgaColor.black.code) v =
        .ok (blanked v 0 (80 * 25)) := by
    apply forRange_blanks v 0 _ (by decide)
    intro k hk v
    have hmod : (2 * k + 1) % 2 ^ 32 = 2 * k + 1 := Nat.mod_eq_of_lt (by omega)
    rw [fbWriteCell, Nat.zero_add, Nat.mul_comm k 2, hmod]
    rfl
  refine ⟨fbMoveCursor { blanked v 0 (80 * 25) with cursorPos := 0 } 0, ?_, ?_, ?_⟩
  · rw [vgaClearScreen, hblank]
    rfl
  · refine ⟨?_, rfl, rfl⟩
    intro r c
    have hr := r.isLt
    have hc := c.isLt
    have hscreen : (Terminal.start v.currentColor).screen r = blankRow := by
      rw [Terminal.screen_eq]
      split_ifs with h1 h2
      · exact absurd h1 (Nat.not_lt_zero _)
      · rfl
      · rfl
    rw [hscreen]
    simp only [cell, fb_fbMoveCursor, blanked]
    rw [if_pos (by omega), if_pos (by omega), if_pos (by omega), if_neg (by omega), blankRow,
      Cell.blank]
  · rw [position_fbMoveCursor _ (show 0 < 2 ^ 16 by decide), cursorPos_fbMoveCursor]
    exact (Nat.zero_div 2).symm

/-- A call that the screen is written with. -/
inductive Call where
  | putchar (c : UInt8)
  | setColor (fg bg : VgaColor)
deriving Repr, DecidableEq

def Call.exec (v : VgaState) : Call → Outcome VgaState
  | .putchar c => vgaPutchar v c
  | .setColor fg bg => .ok (vgaSetColor v fg bg)

def Call.apply (t : Terminal) : Call → Terminal
  | .putchar c => t.put c
  | .setColor fg bg => t.setColor fg bg

theorem Shows.step (h : Shows v t) (hpos : position v = v.cursorPos / 2) (a : Call) :
    ∃ v', a.exec v = .ok v' ∧ Shows v' (a.apply t) ∧ position v' = v'.cursorPos / 2 := by
  cases a with
  | putchar c => exact h.putchar c
  | setColor fg bg => exact ⟨_, rfl, h.setColor fg bg, hpos⟩

theorem Shows.run (h : Shows v t) (hpos : position v = v.cursorPos / 2) (as : List Call) :
    ∃ v', as.foldlM Call.exec v = .ok v' ∧ Shows v' (as.foldl Call.apply t) ∧
      position v' = v'.cursorPos / 2 := by
  induction as generalizing v t with
  | nil => exact ⟨v, rfl, h, hpos⟩
  | cons a as ih =>
    obtain ⟨v₁, h₁, hs₁, hp₁⟩ := h.step hpos a
    obtain ⟨v', h', hs', hp'⟩ := ih hs₁ hp₁
    refine ⟨v', ?_, hs', hp'⟩
    rw [List.foldlM_cons, h₁, ok_bind, h']

/-- After a clear the screen shows the last 25 rows of a terminal without a bottom,
whatever is printed in whatever colours, and the driver stays inside the framebuffer. -/
theorem terminal_refinement (v : VgaState) : ∃ v₀, vgaClearScreen v = .ok v₀ ∧
    ∀ as : List Call, ∃ v', as.foldlM Call.exec v₀ = .ok v' ∧
      v'.cursorPos % 2 = 0 ∧ v'.cursorPos < 4000 ∧
      (∀ r c, cell v' r c = (as.foldl Call.apply (.start v.currentColor)).screen r c) ∧
      position v' = v'.cursorPos / 2 := by
  obtain ⟨v₀, h₀, hs₀, hp₀⟩ := clearScreen_ok v
  refine ⟨v₀, h₀, ?_⟩
  intro as
  obtain ⟨v', h', hs', hp'⟩ := hs₀.run hp₀ as
  refine ⟨v', h', ?_, hs'.cursor_lt, hs'.cells, hp'⟩
  rw [hs'.cursor]
  omega

end Refinement

end KallarOS.Vga
