import KallarOS.AtaModel

namespace KallarOS.Ata

/-- A transfer the device has accepted: the sector under the head, how many
sectors are still to be moved, and how many words of this one have been moved. -/
inductive Transfer where
  | none
  | reading (sector left word : ℕ)
  | writing (sector left word : ℕ)
deriving Repr, DecidableEq

/-- An LBA28 PIO drive. `busy` counts the status reads that still show BSY and
`delays` gives the length of every later busy period. -/
structure Device where
  words : ℕ → Word
  count : BitVec 8
  low : BitVec 8
  mid : BitVec 8
  high : BitVec 8
  drive : BitVec 8
  transfer : Transfer
  busy : ℕ
  delays : ℕ → ℕ
  error : Bool

namespace Device

def startBusy (d : Device) : Device :=
  { d with busy := d.delays 0, delays := fun k => d.delays (k + 1) }

def status (d : Device) : BitVec 8 :=
  if 0 < d.busy then 0x80
  else 0x40 ||| (if d.transfer = .none then 0 else 0x08) ||| (if d.error then 0x01 else 0)

def setBusy (d : Device) (k : ℕ) : Device := { d with busy := k }

def readStatus (d : Device) : BitVec 8 × Device := (d.status, d.setBusy (d.busy - 1))

def address (d : Device) : ℕ :=
  d.low.toNat + 2 ^ 8 * d.mid.toNat + 2 ^ 16 * d.high.toNat + 2 ^ 24 * (d.drive &&& 0x0F).toNat

def sectorTotal (d : Device) : ℕ := if d.count = 0 then 256 else d.count.toNat

/-- READ and WRITE SECTORS need LBA addressing and a range the drive has. -/
def Addressable (d : Device) : Prop :=
  d.drive &&& 0x40 ≠ 0 ∧ d.address + d.sectorTotal ≤ 2 ^ 28

instance (d : Device) : Decidable d.Addressable := inferInstanceAs (Decidable (_ ∧ _))

def begin (d : Device) (t : Transfer) : Device :=
  if d.Addressable then startBusy { d with transfer := t, error := false }
  else startBusy { d with error := true }

def command (d : Device) (c : BitVec 8) : Device :=
  if c = 0x20 then d.begin (.reading d.address d.sectorTotal 0)
  else if c = 0x30 then d.begin (.writing d.address d.sectorTotal 0)
  else if c = 0xE7 then startBusy { d with error := false }
  else startBusy { d with error := true }

/-- A write to one of the registers; they are dead while BSY or DRQ is set, and
FLUSH CACHE alone may follow the last sector of a write at once. -/
def outb (port : ℕ) (data : BitVec 8) (d : Device) : Device :=
  if d.transfer ≠ .none then d
  else if port = 0x1F7 then
    if (d.busy = 0 ∨ data = 0xE7) ∧ d.drive &&& 0x10 = 0 then d.command data else d
  else if 0 < d.busy then d
  else if port = 0x1F2 then { d with count := data }
  else if port = 0x1F3 then { d with low := data }
  else if port = 0x1F4 then { d with mid := data }
  else if port = 0x1F5 then { d with high := data }
  else if port = 0x1F6 then { d with drive := data }
  else d

/-- Where a read stands once `word` words of the sector are out. -/
def readUpTo (d : Device) (sector left word : ℕ) : Device :=
  if word < 256 then { d with transfer := .reading sector left word }
  else if left = 1 then { d with transfer := .none }
  else startBusy { d with transfer := .reading (sector + 1) (left - 1) 0 }

/-- Where a write stands; the drive works on the last sector too. -/
def writtenUpTo (d : Device) (sector left word : ℕ) : Device :=
  if word < 256 then { d with transfer := .writing sector left word }
  else if left = 1 then startBusy { d with transfer := .none }
  else startBusy { d with transfer := .writing (sector + 1) (left - 1) 0 }

def inw (port : ℕ) (d : Device) : Word × Device :=
  match d.transfer with
  | .reading sector left word =>
    if port = 0x1F0 ∧ d.busy = 0 then
      (d.words (256 * sector + word), d.readUpTo sector left (word + 1))
    else (0xFFFF, d)
  | _ => (0xFFFF, d)

def outw (port : ℕ) (data : Word) (d : Device) : Device :=
  match d.transfer with
  | .writing sector left word =>
    if port = 0x1F0 ∧ d.busy = 0 then
      writtenUpTo { d with words := Function.update d.words (256 * sector + word) data }
        sector left (word + 1)
    else d
  | _ => d

def inb (port : ℕ) (d : Device) : BitVec 8 × Device :=
  if port = 0x1F7 ∨ port = 0x3F6 then d.readStatus else (0xFF, d)

/-- The words of one sector. -/
def sector (d : Device) (s : ℕ) : List Word := (List.range 256).map fun w => d.words (256 * s + w)

/-- Ready for the next command. -/
structure Idle (d : Device) : Prop where
  transfer : d.transfer = .none
  busy : d.busy = 0

end Device

def ports : Ports Device := ⟨Device.inb, Device.inw, Device.outb, Device.outw⟩

end KallarOS.Ata
