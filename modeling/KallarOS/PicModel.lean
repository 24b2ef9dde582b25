import Mathlib.Data.Nat.Notation
import Mathlib.Logic.Function.Basic

namespace KallarOS.Interrupts

/-- The words an 8259A still waits for on its data port. -/
inductive Icw where
  | icw2 | icw3 | icw4
deriving Repr, DecidableEq

/-- An 8259A in edge-triggered, fully nested mode. -/
structure Chip where
  line : ℕ → Bool
  request : ℕ → Bool
  service : ℕ → Bool
  mask : BitVec 8
  base : BitVec 8
  autoEoi : Bool
  expects : List Icw

namespace Chip

/-- Input `n` takes a level. A rising edge is latched until it is served or falls again. -/
def drive (c : Chip) (n : ℕ) (level : Bool) : Chip :=
  { c with
    line := Function.update c.line n level
    request := Function.update c.request n (level && (c.request n || !c.line n)) }

/-- Input `n` may interrupt: it is latched and not masked, and nothing as urgent is served. -/
def ready (c : Chip) (n : ℕ) : Bool :=
  c.request n && !c.mask.getLsbD n && (List.range (n + 1)).all fun m => !c.service m

/-- The most urgent input that may interrupt. -/
def pending (c : Chip) : Option ℕ := (List.range 8).find? c.ready

/-- The INT output. -/
def int (c : Chip) : Bool := c.pending.isSome

/-- The answer to the processor's acknowledgement; without a request it is input 7,
which is then not entered as served. -/
def acknowledge (c : Chip) : ℕ × Chip :=
  match c.pending with
  | some n => (n, { c with
      request := Function.update c.request n false
      service := if c.autoEoi then c.service else Function.update c.service n true })
  | none => (7, c)

def vector (c : Chip) (n : ℕ) : ℕ := c.base.toNat + n

/-- The command port: ICW1 restarts the chip, and OCW2 0x20 ends the most urgent service. -/
def command (c : Chip) (v : BitVec 8) : Chip :=
  if v.getLsbD 4 then
    { c with
      request := fun _ => false
      service := fun _ => false
      mask := 0
      autoEoi := false
      expects := .icw2 :: ((if v.getLsbD 1 then [] else [.icw3]) ++ if v.getLsbD 0 then [.icw4] else []) }
  else if v &&& 0xF8 = 0x20 then
    match (List.range 8).find? c.service with
    | some n => { c with service := Function.update c.service n false }
    | none => c
  else c

/-- The data port: what the restarted chip waits for, and then the mask. -/
def data (c : Chip) (v : BitVec 8) : Chip :=
  match c.expects with
  | [] => { c with mask := v }
  | .icw2 :: rest => { c with base := v &&& 0xF8, expects := rest }
  | .icw3 :: rest => { c with expects := rest }
  | .icw4 :: rest => { c with autoEoi := v.getLsbD 1, expects := rest }

end Chip

/-- The two chips, the slave's INT on the master's input 2. -/
structure Pics where
  master : Chip
  slave : Chip

namespace Pics

def cascade (p : Pics) : Pics := { p with master := p.master.drive 2 p.slave.int }

def outb (port : ℕ) (v : BitVec 8) (p : Pics) : Pics :=
  if port = 0x20 then { p with master := p.master.command v }
  else if port = 0x21 then { p with master := p.master.data v }
  else if port = 0xA0 then cascade { p with slave := p.slave.command v }
  else if port = 0xA1 then cascade { p with slave := p.slave.data v }
  else p

/-- A device drives one of the sixteen lines; input 2 of the master is not one of them. -/
def drive (p : Pics) (irq : ℕ) (level : Bool) : Pics :=
  if irq < 8 then { p with master := p.master.drive irq level }
  else cascade { p with slave := p.slave.drive (irq - 8) level }

/-- When the master serves its input 2, the vector is the slave's. -/
def acknowledge (p : Pics) : ℕ × Pics :=
  if p.master.pending = some 2 then
    (p.slave.vector p.slave.acknowledge.1,
      cascade { master := p.master.acknowledge.2, slave := p.slave.acknowledge.2 })
  else (p.master.vector p.master.acknowledge.1, { p with master := p.master.acknowledge.2 })

end Pics
end KallarOS.Interrupts
