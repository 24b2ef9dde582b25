import KallarOS.AtaTransfers

namespace KallarOS.Ata

/-- What a drive does in the course of one write: for how many status reads it is busy
after the command, after each sector and after the flush, and what it then reports. -/
structure Behaviour where
  commandBusy : ℕ
  sectorBusy : ℕ → ℕ
  sectorError : ℕ → Bool
  flushBusy : ℕ
  flushError : Bool

/-- A drive that takes sectors: those it has received and those it still expects, the
words of the present one, and the status reads that still show BSY. -/
structure Drive where
  count : BitVec 8
  sector : ℕ
  left : ℕ
  word : ℕ
  busy : ℕ
  error : Bool
deriving Repr, DecidableEq

namespace Drive

variable (b : Behaviour)

def status (d : Drive) : BitVec 8 :=
  if 0 < d.busy then 0x80
  else 0x40 ||| (if 0 < d.left then 0x08 else 0) ||| (if d.error then 0x01 else 0)

def inb (port : ℕ) (d : Drive) : BitVec 8 × Drive :=
  if port = 0x1F7 ∨ port = 0x3F6 then (d.status, { d with busy := d.busy - 1 }) else (0xFF, d)

def command (c : BitVec 8) (d : Drive) : Drive :=
  if c = 0x30 then
    { d with
      sector := 0, left := if d.count = 0 then 256 else d.count.toNat, word := 0,
      busy := b.commandBusy, error := false }
  else if c = 0xE7 then { d with left := 0, busy := b.flushBusy, error := b.flushError }
  else { d with left := 0, error := true }

/-- What is written to a register while the drive is busy is lost. -/
def outb (port : ℕ) (data : BitVec 8) (d : Drive) : Drive :=
  if 0 < d.busy then d
  else if port = 0x1F7 then d.command b data
  else if port = 0x1F2 then { d with count := data }
  else d

/-- The last word of a sector starts its busy period; an error ends the transfer. -/
def outw (port : ℕ) (_ : Word) (d : Drive) : Drive :=
  if port = 0x1F0 ∧ d.busy = 0 ∧ 0 < d.left then
    if d.word + 1 < 256 then { d with word := d.word + 1 }
    else
      { d with
        sector := d.sector + 1, left := if b.sectorError d.sector then 0 else d.left - 1,
        word := 0, busy := b.sectorBusy d.sector, error := b.sectorError d.sector }
  else d

/-- Ready for a command. -/
structure Rest (d : Drive) : Prop where
  left : d.left = 0
  busy : d.busy = 0

end Drive

def drivePorts (b : Behaviour) : Ports Drive where
  inb := Drive.inb
  inw _ d := (0xFFFF, d)
  outb := Drive.outb b
  outw := Drive.outw b

section Writes

variable {σ : Type} (io : Ports σ)

/-- The registers in front of the command byte. -/
def setRegisters (lba : BitVec 32) (sectorCount : BitVec 8) (d : σ) : σ :=
  let d := io.outb 0x1F6 (driveByte lba) d
  let d := io.outb 0x1F1 0x00 d
  let d := io.outb 0x1F2 sectorCount d
  let d := io.outb 0x1F3 (lba.setWidth 8) d
  let d := io.outb 0x1F4 ((lba >>> 8).setWidth 8) d
  io.outb 0x1F5 ((lba >>> 16).setWidth 8) d

theorem sendCommand_eq (lba : BitVec 32) (sectorCount c : BitVec 8) (d : σ) :
    sendCommand io lba sectorCount c d = io.outb 0x1F7 c (setRegisters io lba sectorCount d) := rfl

/-- `write_sectors` up to the flush. -/
def writeLoop (fuel : ℕ) (lba : BitVec 32) (sectorCount : BitVec 8) (buffer : List Word) (d : σ) :
    Outcome σ :=
  Outcome.forRange (sectorCounts sectorCount) (writeSector io fuel buffer)
    (sendCommand io lba sectorCount 0x30 d)

theorem writeSectors_eq (fuel : ℕ) (lba : BitVec 32) (sectorCount : BitVec 8) (buffer : List Word)
    (d : σ) : writeSectors io fuel lba sectorCount buffer d =
      writeLoop io fuel lba sectorCount buffer d >>= flushCache io fuel := rfl

/-- The states in which `write_sectors` writes the command register, with the byte: the
command itself, and the flush once the loop is through. -/
inductive CommandWrite (fuel : ℕ) (lba : BitVec 32) (sectorCount : BitVec 8) (buffer : List Word)
    (d : σ) : BitVec 8 → σ → Prop where
  | command : CommandWrite fuel lba sectorCount buffer d 0x30 (setRegisters io lba sectorCount d)
  | flush {e : σ} : writeLoop io fuel lba sectorCount buffer d = .ok e →
      CommandWrite fuel lba sectorCount buffer d 0xE7 e

end Writes

/-- The completion protocol: no command while the drive is busy, and no return after an
error of a sector or of the flush. -/
def Completes (b : Behaviour) (lba : BitVec 32) (sectorCount : BitVec 8) (buffer : List Word)
    (d : Drive) : Prop :=
  ∀ fuel, (∀ c e, CommandWrite (drivePorts b) fuel lba sectorCount buffer d c e → e.busy = 0) ∧
    ∀ e, writeSectors (drivePorts b) fuel lba sectorCount buffer d = .ok e →
      (∀ i < sectorCounts sectorCount, b.sectorError i = false) ∧ b.flushError = false

section Turns

variable {b : Behaviour} {fuel : ℕ} {d : Drive}

theorem status_bits (d : Drive) (h : d.busy = 0) : d.status &&& 0x80 = 0 ∧
    (d.status &&& 0x01 ≠ 0 ↔ d.error = true) ∧ (d.status &&& 0x08 ≠ 0 ↔ 0 < d.left) := by
  unfold Drive.status
  rw [if_neg (by omega)]
  by_cases hl : 0 < d.left <;> cases he : d.error <;> simp [hl]

theorem waitNotBusy_drive : waitNotBusy (drivePorts b) fuel d =
    if d.busy < fuel then .ok { d with busy := 0 } else .error .diverge := by
  induction fuel generalizing d with
  | zero => rfl
  | succ fuel ih =>
    have hread : (drivePorts b).inb 0x1F7 d = (d.status, { d with busy := d.busy - 1 }) := rfl
    rw [waitNotBusy_succ, hread]
    by_cases hb : d.busy = 0
    · rw [if_neg (not_not_intro (status_bits d hb).1), if_pos (by omega), hb]
    · have hs : d.status = 0x80 := if_pos (by omega)
      have hbsy : (0x80 : BitVec 8) &&& 0x80 ≠ 0 := by decide
      rw [hs, if_pos hbsy, ih]
      by_cases hlt : d.busy < fuel + 1
      · rw [if_pos (by simp only; omega), if_pos hlt]
      · rw [if_neg (by simp only; omega), if_neg hlt]

theorem pollSector_drive (h : d.busy < fuel) : pollSector (drivePorts b) fuel d =
    if d.error then .error (.panic "abort!\nError on ATA")
    else .ok (decide (0 < d.left), { d with busy := 0 }) := by
  obtain ⟨-, herr, hdrq⟩ := status_bits { d with busy := 0 } rfl
  have hwait : waitNotBusy (drivePorts b) fuel d = .ok { d with busy := 0 } := by
    rw [waitNotBusy_drive, if_pos h]
  have hpoll : pollSector (drivePorts b) fuel d =
      if Drive.status { d with busy := 0 } &&& 0x01 ≠ 0 then .error (.panic "abort!\nError on ATA")
      else .ok (decide (Drive.status { d with busy := 0 } &&& 0x08 ≠ 0), { d with busy := 0 }) := by
    rw [pollSector, hwait]
    rfl
  rw [hpoll]
  simp only [herr, hdrq]

/-- The drive has the 256 words of a sector. -/
def received (b : Behaviour) (d : Drive) : Drive :=
  { d with
    sector := d.sector + 1, left := if b.sectorError d.sector then 0 else d.left - 1, word := 0,
    busy := b.sectorBusy d.sector, error := b.sectorError d.sector }

theorem outw_word (w : Word) (hb : d.busy = 0) (hl : 0 < d.left) (j : ℕ) :
    Drive.outw b 0x1F0 w { d with word := j } =
      if j + 1 < 256 then { d with word := j + 1 } else received b d := by
  unfold Drive.outw
  rw [if_pos ⟨rfl, hb, hl⟩]
  rfl

theorem writeWords_drive {buffer : List Word} {i : ℕ} (hroom : 256 * i + 256 ≤ buffer.length)
    (hb : d.busy = 0) (hl : 0 < d.left) (hw : d.word = 0) :
    Outcome.forRange 256 (writeWord (drivePorts b) buffer i) d = .ok (received b d) := by
  obtain ⟨_, hrun, hlast⟩ := Outcome.forRange_ok
    (fun j e => e = if j < 256 then { d with word := j } else received b d)
    256 (writeWord (drivePorts b) buffer i) d (by rw [if_pos (by omega), ← hw]) (by
      rintro j hj _ rfl
      have hin : i * 256 + j < buffer.length := by omega
      have hload : loadWord buffer (i * 256 + j) = .ok buffer[i * 256 + j] := by
        rw [loadWord, List.getElem?_eq_getElem hin]
      refine ⟨_, ?_, rfl⟩
      rw [writeWord, hload, Outcome.ok_bind, if_pos hj]
      exact congrArg Except.ok (outw_word buffer[i * 256 + j] hb hl j))
  rw [hrun, hlast, if_neg (by omega)]

/-- One turn of the loop on a drive that expects a sector. -/
theorem writeSector_drive {buffer : List Word} {i : ℕ} (hroom : 256 * i + 256 ≤ buffer.length)
    (hb : d.busy < fuel) (he : d.error = false) (hl : 0 < d.left) (hw : d.word = 0) :
    writeSector (drivePorts b) fuel buffer i d =
      .ok { received b d with busy := b.sectorBusy d.sector - 4 } := by
  have hpoll : pollSector (drivePorts b) fuel d = .ok (true, { d with busy := 0 }) := by
    rw [pollSector_drive hb, he, if_neg (by decide), decide_eq_true hl]
  have hwords := writeWords_drive (b := b) (d := { d with busy := 0 }) hroom rfl hl hw
  rw [writeSector, hpoll]
  simp only [Outcome.ok_bind, if_true, hwords]
  rfl

/-- What a turn needs to return. -/
theorem of_writeSector_ok {buffer : List Word} {i : ℕ} {e : Drive}
    (h : writeSector (drivePorts b) fuel buffer i d = .ok e) : d.busy < fuel ∧ d.error = false := by
  obtain ⟨r, hpoll, -⟩ := Outcome.bind_eq_ok.mp h
  have hb : d.busy < fuel := by
    obtain ⟨u, hwait, -⟩ := Outcome.bind_eq_ok.mp hpoll
    rw [waitNotBusy_drive] at hwait
    by_contra hge
    rw [if_neg hge] at hwait
    cases hwait
  refine ⟨hb, ?_⟩
  rw [pollSector_drive hb] at hpoll
  cases he : d.error with
  | false => rfl
  | true =>
    rw [he, if_pos rfl] at hpoll
    cases hpoll

end Turns

/-- The drive between two turns of the loop; four status reads of the busy period are
over by then. -/
def driveAt (b : Behaviour) (sectorCount : BitVec 8) : ℕ → Drive
  | 0 => ⟨sectorCount, 0, sectorCounts sectorCount, 0, b.commandBusy, false⟩
  | i + 1 =>
    ⟨sectorCount, i + 1, if b.sectorError i then 0 else sectorCounts sectorCount - (i + 1), 0,
      b.sectorBusy i - 4, b.sectorError i⟩

section Runs

variable {b : Behaviour} {fuel : ℕ} {d : Drive} {lba : BitVec 32} {sectorCount : BitVec 8}
  {buffer : List Word}

theorem setRegisters_drive (hd : d.Rest) :
    setRegisters (drivePorts b) lba sectorCount d = { d with count := sectorCount } := by
  simp [setRegisters, drivePorts, Drive.outb, hd.busy]

theorem sendCommand_drive (hd : d.Rest) :
    sendCommand (drivePorts b) lba sectorCount 0x30 d = driveAt b sectorCount 0 := by
  rw [sendCommand_eq, setRegisters_drive hd]
  simp [drivePorts, Drive.outb, hd.busy, Drive.command, driveAt, sectorCounts]

/-- A turn leads from one of these states to the next. -/
theorem writeSector_driveAt {i : ℕ} (hlen : 256 * sectorCounts sectorCount ≤ buffer.length)
    (hi : i < sectorCounts sectorCount) (hb : (driveAt b sectorCount i).busy < fuel)
    (he : (driveAt b sectorCount i).error = false) :
    writeSector (drivePorts b) fuel buffer i (driveAt b sectorCount i) =
      .ok (driveAt b sectorCount (i + 1)) := by
  have hroom : 256 * i + 256 ≤ buffer.length := by omega
  cases i with
  | zero =>
    rw [writeSector_drive hroom hb he hi rfl]
    rfl
  | succ i =>
    have he : b.sectorError i = false := he
    have hleft : (driveAt b sectorCount (i + 1)).left = sectorCounts sectorCount - (i + 1) := by
      simp only [driveAt, he, if_neg Bool.false_ne_true]
    rw [writeSector_drive hroom hb he (by rw [hleft]; omega) rfl]
    simp only [received, hleft, Nat.sub_sub]
    rfl

/-- The loop returns only if no sector before the last one failed. -/
theorem of_writeLoop_ok {e : Drive} (hd : d.Rest)
    (hlen : 256 * sectorCounts sectorCount ≤ buffer.length)
    (hrun : writeLoop (drivePorts b) fuel lba sectorCount buffer d = .ok e) :
    e = driveAt b sectorCount (sectorCounts sectorCount) ∧
      ∀ i, i + 1 < sectorCounts sectorCount → b.sectorError i = false := by
  rw [writeLoop, sendCommand_drive hd] at hrun
  refine Outcome.forRange_returned (fun i e => e = driveAt b sectorCount i ∧
    ∀ j, j + 1 < i → b.sectorError j = false) ⟨rfl, fun j hj => by omega⟩ ?_ hrun
  rintro i hi _ v ⟨rfl, hbefore⟩ hturn
  obtain ⟨hbusy, herr⟩ := of_writeSector_ok hturn
  rw [writeSector_driveAt hlen hi hbusy herr] at hturn
  cases hturn
  refine ⟨rfl, fun j hj => ?_⟩
  by_cases hji : j + 1 = i
  -- the poll of this turn saw what the sector before it reported
  · subst hji
    exact herr
  · exact hbefore j (by omega)

/-- Without such an error, and with enough patience, it does return. -/
theorem writeLoop_ok (hd : d.Rest) (hlen : 256 * sectorCounts sectorCount ≤ buffer.length)
    (hgood : ∀ i, i + 1 < sectorCounts sectorCount → b.sectorError i = false)
    (hfuel : ∀ i < sectorCounts sectorCount, (driveAt b sectorCount i).busy < fuel) :
    writeLoop (drivePorts b) fuel lba sectorCount buffer d =
      .ok (driveAt b sectorCount (sectorCounts sectorCount)) := by
  rw [writeLoop, sendCommand_drive hd]
  obtain ⟨_, hrun, rfl⟩ := Outcome.forRange_ok (fun i e => e = driveAt b sectorCount i)
    (sectorCounts sectorCount) (writeSector (drivePorts b) fuel buffer) (driveAt b sectorCount 0)
    rfl (by
      rintro i hi _ rfl
      refine ⟨_, writeSector_driveAt hlen hi (hfuel i hi) ?_, rfl⟩
      cases i with
      | zero => rfl
      | succ i => exact hgood i hi)
  exact hrun

theorem exists_patience (b : Behaviour) (sectorCount : BitVec 8) (k : ℕ) :
    ∃ fuel, k < fuel ∧ ∀ i < sectorCounts sectorCount, (driveAt b sectorCount i).busy < fuel := by
  let busiest := (Finset.range (sectorCounts sectorCount)).sup fun i => (driveAt b sectorCount i).busy
  refine ⟨k + busiest + 1, by omega, fun i hi => ?_⟩
  have hle : (driveAt b sectorCount i).busy ≤ busiest :=
    Finset.le_sup (f := fun i => (driveAt b sectorCount i).busy) (Finset.mem_range.mpr hi)
  omega

/-- The flush is taken by a drive that is not busy, and then only waited for. -/
theorem flushCache_drive (hb : d.busy = 0) (hfuel : b.flushBusy < fuel) :
    flushCache (drivePorts b) fuel d = .ok { d with left := 0, busy := 0, error := b.flushError } := by
  have hflush : (drivePorts b).outb 0x1F7 0xE7 d =
      { d with left := 0, busy := b.flushBusy, error := b.flushError } := by
    change Drive.outb b 0x1F7 0xE7 d = _
    rw [Drive.outb, if_neg (by omega), if_pos rfl]
    rfl
  rw [flushCache, hflush, waitNotBusy_drive, if_pos hfuel]

/-- The condition on the drive: an error before the last sector, which the next poll
finds, or nothing to find after it. -/
def Forgiving (b : Behaviour) (n : ℕ) : Prop :=
  (∃ i, i + 1 < n ∧ b.sectorError i = true) ∨
    (b.sectorBusy (n - 1) ≤ 4 ∧ b.sectorError (n - 1) = false ∧ b.flushError = false)

/-- On such a drive the loop ends with the drive at rest, or not at all. -/
theorem Forgiving.returned {e : Drive} (hf : Forgiving b (sectorCounts sectorCount)) (hd : d.Rest)
    (hlen : 256 * sectorCounts sectorCount ≤ buffer.length)
    (hrun : writeLoop (drivePorts b) fuel lba sectorCount buffer d = .ok e) :
    e.busy = 0 ∧ (∀ i < sectorCounts sectorCount, b.sectorError i = false) ∧
      b.flushError = false := by
  obtain ⟨m, hm⟩ := exists_sectorCounts sectorCount
  obtain ⟨rfl, hgood⟩ := of_writeLoop_ok hd hlen hrun
  rcases hf with ⟨i, hi, herr⟩ | ⟨hbusy, herr, hflush⟩
  · rw [hgood i hi] at herr
    cases herr
  · rw [hm] at hbusy herr hgood ⊢
    rw [Nat.add_sub_cancel] at hbusy herr
    refine ⟨by simp only [driveAt]; omega, fun i hi => ?_, hflush⟩
    by_cases him : i = m
    · rw [him]
      exact herr
    · exact hgood i (by omega)

theorem Forgiving.completes (hf : Forgiving b (sectorCounts sectorCount)) (hd : d.Rest)
    (hlen : 256 * sectorCounts sectorCount ≤ buffer.length) :
    Completes b lba sectorCount buffer d := by
  intro fuel
  refine ⟨fun c e hwrite => ?_, fun e hrun => ?_⟩
  · cases hwrite with
    | command =>
      rw [setRegisters_drive hd]
      exact hd.busy
    | flush hrun => exact (hf.returned hd hlen hrun).1
  · obtain ⟨u, hloop, -⟩ := Outcome.bind_eq_ok.mp hrun
    exact (hf.returned hd hlen hloop).2

/-- Without an earlier error the run gets to the flush, and the protocol asks for the rest. -/
theorem Completes.forgiving (hc : Completes b lba sectorCount buffer d) (hd : d.Rest)
    (hlen : 256 * sectorCounts sectorCount ≤ buffer.length) :
    Forgiving b (sectorCounts sectorCount) := by
  obtain ⟨m, hm⟩ := exists_sectorCounts sectorCount
  by_cases hearly : ∃ i, i + 1 < sectorCounts sectorCount ∧ b.sectorError i = true
  · exact .inl hearly
  · have hgood : ∀ i, i + 1 < sectorCounts sectorCount → b.sectorError i = false := by
      intro i hi
      exact Bool.eq_false_iff.mpr fun h => hearly ⟨i, hi, h⟩
    obtain ⟨fuel, hflush, hfuel⟩ := exists_patience b sectorCount b.flushBusy
    obtain ⟨hquiet, hreport⟩ := hc fuel
    have hloop : writeLoop (drivePorts b) fuel lba sectorCount buffer d = .ok _ :=
      writeLoop_ok hd hlen hgood hfuel
    have hidle := hquiet _ _ (.flush hloop)
    obtain ⟨hsectors, hlast⟩ := hreport _ (by
      rw [writeSectors_eq, hloop, Outcome.ok_bind, flushCache_drive hidle hflush])
    rw [hm] at hidle hsectors ⊢
    simp only [driveAt] at hidle
    exact .inr ⟨by rw [Nat.add_sub_cancel]; omega, hsectors _ (by omega), hlast⟩

theorem completes_iff (hd : d.Rest) (hlen : 256 * sectorCounts sectorCount ≤ buffer.length) :
    Completes b lba sectorCount buffer d ↔ Forgiving b (sectorCounts sectorCount) :=
  ⟨fun hc => hc.forgiving hd hlen, fun hf => hf.completes hd hlen⟩

end Runs

/-- `write_sectors` keeps to the protocol exactly when an earlier sector fails, or the
drive is done with the last one within four status reads and neither it nor the flush
fails. -/
theorem write_completion_iff (b : Behaviour) (lba : BitVec 32) (sectorCount : BitVec 8)
    (buffer : List Word) (d : Drive) (hd : d.Rest)
    (hlen : 256 * sectorCounts sectorCount ≤ buffer.length) :
    Completes b lba sectorCount buffer d ↔ Forgiving b (sectorCounts sectorCount) :=
  completes_iff hd hlen

def restingDrive : Drive := ⟨0, 0, 0, 0, 0, false⟩

theorem write_completion_iff_sample :
    Completes ⟨9, fun _ => 4, fun _ => false, 9, false⟩ 5 2 (List.replicate 512 0) restingDrive :=
  (write_completion_iff _ 5 2 _ restingDrive ⟨rfl, rfl⟩ (by rw [List.length_replicate]; decide)).mpr
    (.inr ⟨by decide, rfl, rfl⟩)

/-- A drive that needs five status reads for its only sector is sent the flush while it
is busy; one that fails on it, or on the flush, is not asked. -/
theorem last_sector_unchecked :
    ¬Completes ⟨0, fun _ => 5, fun _ => false, 0, false⟩ 0 1 (List.replicate 256 0) restingDrive ∧
      ¬Completes ⟨0, fun _ => 0, fun _ => true, 0, false⟩ 0 1 (List.replicate 256 0) restingDrive ∧
      ¬Completes ⟨0, fun _ => 0, fun _ => false, 0, true⟩ 0 1 (List.replicate 256 0) restingDrive := by
  have hlen : 256 * sectorCounts 1 ≤ (List.replicate 256 (0 : Word)).length := by
    rw [List.length_replicate]
    decide
  have hone : ∀ i, ¬i + 1 < sectorCounts 1 := by
    intro i hi
    rw [show sectorCounts 1 = 1 from rfl] at hi
    omega
  refine ⟨?_, ?_, ?_⟩
  all_goals
    rw [completes_iff ⟨rfl, rfl⟩ hlen]
    rintro (⟨i, hi, -⟩ | ⟨hbusy, herr, hflush⟩)
    · exact hone i hi
  · exact absurd hbusy (by decide)
  · cases herr
  · cases hflush

end KallarOS.Ata
