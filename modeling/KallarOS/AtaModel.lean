import KallarOS.Outcome

namespace KallarOS.Ata

abbrev Word := BitVec 16

/-- The I/O instructions on a machine of state `σ`. -/
structure Ports (σ : Type) where
  inb : ℕ → σ → BitVec 8 × σ
  inw : ℕ → σ → Word × σ
  outb : ℕ → BitVec 8 → σ → σ
  outw : ℕ → Word → σ → σ

section Driver
variable {σ : Type} (io : Ports σ)

/-- `while (inb(0x1F7) & 0x80);` with a bound on the number of turns. -/
def waitNotBusy : ℕ → σ → Outcome σ
  | 0, _ => .error .diverge
  | fuel + 1, d =>
    let (status, d) := io.inb 0x1F7 d
    if status &&& 0x80 ≠ 0 then waitNotBusy fuel d else .ok d

theorem waitNotBusy_succ (fuel : ℕ) (d : σ) :
    waitNotBusy io (fuel + 1) d =
      if (io.inb 0x1F7 d).1 &&& 0x80 ≠ 0 then waitNotBusy io fuel (io.inb 0x1F7 d).2
      else .ok (io.inb 0x1F7 d).2 :=
  rfl

/-- The four reads of the alternate status port after each sector. -/
def readAlternate (d : σ) : σ :=
  let (_, d) := io.inb 0x3F6 d
  let (_, d) := io.inb 0x3F6 d
  let (_, d) := io.inb 0x3F6 d
  let (_, d) := io.inb 0x3F6 d
  d

def loadWord (buffer : List Word) (i : ℕ) : Outcome Word :=
  match buffer[i]? with
  | some w => .ok w
  | none => .error (.fault i)

def storeWord (buffer : List Word) (i : ℕ) (w : Word) : Outcome (List Word) :=
  if i < buffer.length then .ok (buffer.set i w) else .error (.fault i)

/-- The byte for port 0x1F6: LBA mode, first drive, address bits 24 to 27. -/
def driveByte (lba : BitVec 32) : BitVec 8 :=
  BitVec.setWidth 8 ((0xE0 : BitVec 32) ||| ((0 : BitVec 32) <<< 4) ||| ((lba >>> 24) &&& 0x0F))

/-- The registers and the command byte that both transfers start with. -/
def sendCommand (lba : BitVec 32) (sectorCount command : BitVec 8) (d : σ) : σ :=
  let d := io.outb 0x1F6 (driveByte lba) d
  let d := io.outb 0x1F1 0x00 d
  let d := io.outb 0x1F2 sectorCount d
  let d := io.outb 0x1F3 (lba.setWidth 8) d
  let d := io.outb 0x1F4 ((lba >>> 8).setWidth 8) d
  let d := io.outb 0x1F5 ((lba >>> 16).setWidth 8) d
  io.outb 0x1F7 command d

def sectorCounts (sectorCount : BitVec 8) : ℕ :=
  if sectorCount = 0 then 256 else sectorCount.toNat

/-- The polling in front of each sector: wait, panic on ERR, and look at DRQ. -/
def pollSector (fuel : ℕ) (d : σ) : Outcome (Bool × σ) := do
  let d ← waitNotBusy io fuel d
  let (status, d) := io.inb 0x1F7 d
  if status &&& 0x01 ≠ 0 then .error (.panic "abort!\nError on ATA")
  else
    let (status, d) := io.inb 0x1F7 d
    .ok (status &&& 0x08 ≠ 0, d)

def readWord (i j : ℕ) (s : List Word × σ) : Outcome (List Word × σ) := do
  let (word, d) := io.inw 0x1F0 s.2
  let buffer ← storeWord s.1 (i * 256 + j) word
  .ok (buffer, d)

def readSector (fuel i : ℕ) (s : List Word × σ) : Outcome (List Word × σ) := do
  let (drq, d) ← pollSector io fuel s.2
  -- without DRQ the sector is skipped and its part of the buffer stays as it was
  let (buffer, d) ← if drq then Outcome.forRange 256 (readWord io i) (s.1, d) else .ok (s.1, d)
  .ok (buffer, readAlternate io d)

def readSectors (fuel : ℕ) (lba : BitVec 32) (sectorCount : BitVec 8) (buffer : List Word) (d : σ) :
    Outcome (List Word × σ) :=
  Outcome.forRange (sectorCounts sectorCount) (readSector io fuel)
    (buffer, sendCommand io lba sectorCount 0x20 d)

def flushCache (fuel : ℕ) (d : σ) : Outcome σ :=
  waitNotBusy io fuel (io.outb 0x1F7 0xE7 d)

def writeWord (buffer : List Word) (i j : ℕ) (d : σ) : Outcome σ := do
  let word ← loadWord buffer (i * 256 + j)
  .ok (io.outw 0x1F0 word d)

def writeSector (fuel : ℕ) (buffer : List Word) (i : ℕ) (d : σ) : Outcome σ := do
  let (drq, d) ← pollSector io fuel d
  -- without DRQ the sector is not sent, and the caller does not learn of it
  let d ← if drq then Outcome.forRange 256 (writeWord io buffer i) d else .ok d
  .ok (readAlternate io d)

def writeSectors (fuel : ℕ) (lba : BitVec 32) (sectorCount : BitVec 8) (buffer : List Word) (d : σ) :
    Outcome σ := do
  let d ← Outcome.forRange (sectorCounts sectorCount) (writeSector io fuel buffer)
    (sendCommand io lba sectorCount 0x30 d)
  flushCache io fuel d

end Driver
end KallarOS.Ata
