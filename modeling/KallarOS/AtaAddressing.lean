import KallarOS.AtaTransfers

namespace KallarOS.Ata

/-- The byte last written to each port. -/
abbrev Registers := ℕ → BitVec 8

/-- The sector address in the registers, as a 28-bit LBA. -/
def Registers.address (r : Registers) : ℕ :=
  (r 0x1F3).toNat + 2 ^ 8 * (r 0x1F4).toNat + 2 ^ 16 * (r 0x1F5).toNat +
    2 ^ 24 * (r 0x1F6 &&& 0x0F).toNat

/-- A machine with a record of what is written to its ports. -/
def recording {σ : Type} (io : Ports σ) : Ports (σ × Registers) where
  inb port s := ((io.inb port s.1).1, (io.inb port s.1).2, s.2)
  inw port s := ((io.inw port s.1).1, (io.inw port s.1).2, s.2)
  outb port data s := (io.outb port data s.1, Function.update s.2 port data)
  outw port word s := (io.outw port word s.1, s.2)

inductive Operation where
  | read | write
deriving Repr, DecidableEq

/-- `read_sectors` or `write_sectors`, as far as the machine is concerned. -/
def transferSectors {σ : Type} (io : Ports σ) (op : Operation) (fuel : ℕ) (lba : BitVec 32)
    (sectorCount : BitVec 8) (buffer : List Word) (d : σ) : Outcome σ :=
  match op with
  | .read => do
    let (_, d) ← readSectors io fuel lba sectorCount buffer d
    .ok d
  | .write => writeSectors io fuel lba sectorCount buffer d

/-- On some machine the call returns, with `a` programmed into the registers. -/
def Programs (op : Operation) (lba : BitVec 32) (sectorCount : BitVec 8) (buffer : List Word)
    (a : ℕ) : Prop :=
  ∃ (σ : Type) (io : Ports σ) (fuel : ℕ) (d d' : σ) (r r' : Registers),
    transferSectors (recording io) op fuel lba sectorCount buffer (d, r) = .ok (d', r') ∧
      r'.address = a

section Recording

variable {σ : Type} {io : Ports σ} {fuel : ℕ} {s s' : σ × Registers}

theorem registers_waitNotBusy (h : waitNotBusy (recording io) fuel s = .ok s') : s'.2 = s.2 := by
  induction fuel generalizing s with
  | zero => cases h
  | succ fuel ih =>
    rw [waitNotBusy_succ] at h
    split at h
    · have hs := ih h
      exact hs
    · cases h
      rfl

theorem registers_pollSector {drq : Bool} (h : pollSector (recording io) fuel s = .ok (drq, s')) :
    s'.2 = s.2 := by
  obtain ⟨u, hwait, hpoll⟩ := Outcome.bind_eq_ok.mp h
  have hu := registers_waitNotBusy hwait
  simp only at hpoll
  split at hpoll
  · cases hpoll
  · cases hpoll
    exact hu

theorem registers_writeSector {buffer : List Word} {i : ℕ}
    (h : writeSector (recording io) fuel buffer i s = .ok s') : s'.2 = s.2 := by
  obtain ⟨⟨drq, u⟩, hpoll, hsend⟩ := Outcome.bind_eq_ok.mp h
  have hu := registers_pollSector hpoll
  cases drq with
  | false =>
    cases hsend
    exact hu
  | true =>
    obtain ⟨v, hwords, hlast⟩ := Outcome.bind_eq_ok.mp hsend
    cases hlast
    refine Outcome.forRange_returned (fun _ v => v.2 = s.2) hu (fun j _ v w hv hword => ?_) hwords
    obtain ⟨word, -, hout⟩ := Outcome.bind_eq_ok.mp hword
    cases hout
    exact hv

theorem registers_readSector {i : ℕ} {x y : List Word × (σ × Registers)}
    (h : readSector (recording io) fuel i x = .ok y) : y.2.2 = x.2.2 := by
  obtain ⟨⟨drq, u⟩, hpoll, hread⟩ := Outcome.bind_eq_ok.mp h
  have hu := registers_pollSector hpoll
  cases drq with
  | false =>
    cases hread
    exact hu
  | true =>
    obtain ⟨⟨buffer, v⟩, hwords, hlast⟩ := Outcome.bind_eq_ok.mp hread
    cases hlast
    change v.2 = x.2.2
    refine Outcome.forRange_returned (y := (buffer, v))
      (fun _ (z : List Word × (σ × Registers)) => z.2.2 = x.2.2) hu (fun j _ v w hv hword => ?_) hwords
    obtain ⟨word, -, hout⟩ := Outcome.bind_eq_ok.mp hword
    cases hout
    exact hv

theorem shifted_nibble (lba : BitVec 32) :
    ((lba >>> 24) &&& 0x0F).toNat = lba.toNat / 2 ^ 24 % 2 ^ 4 := by
  rw [BitVec.toNat_and, BitVec.toNat_ushiftRight, Nat.shiftRight_eq_div_pow]
  exact Nat.and_two_pow_sub_one_eq_mod _ 4

/-- Of the bits above the 24th only four fit beside the mode bits. -/
theorem driveByte_low (lba : BitVec 32) :
    (driveByte lba &&& 0x0F).toNat = lba.toNat / 2 ^ 24 % 2 ^ 4 := by
  obtain ⟨v, hv, hlba⟩ : ∃ v < 16, (lba >>> 24) &&& 0x0F = BitVec.ofNat 32 v :=
    ⟨lba.toNat / 2 ^ 24 % 2 ^ 4, Nat.mod_lt _ (by decide), BitVec.eq_of_toNat_eq (by
      rw [shifted_nibble, BitVec.toNat_ofNat]
      omega)⟩
  rw [← shifted_nibble]
  unfold driveByte
  rw [hlba]
  interval_cases v <;> decide

/-- The four register writes keep the low 28 bits of the sector number. -/
theorem address_sendCommand (lba : BitVec 32) (sectorCount c : BitVec 8) :
    (sendCommand (recording io) lba sectorCount c s).2.address = lba.toNat % 2 ^ 28 := by
  have hregs : (sendCommand (recording io) lba sectorCount c s).2.address =
      (lba.setWidth 8).toNat + 2 ^ 8 * ((lba >>> 8).setWidth 8).toNat +
        2 ^ 16 * ((lba >>> 16).setWidth 8).toNat + 2 ^ 24 * (driveByte lba &&& 0x0F).toNat := by
    simp [sendCommand, recording, Registers.address, Function.update]
  rw [hregs, driveByte_low]
  simp only [BitVec.toNat_setWidth, BitVec.toNat_ushiftRight, Nat.shiftRight_eq_div_pow]
  omega

/-- A call that returns has programmed the sector number without its top four bits. -/
theorem address_transferSectors {op : Operation} {lba : BitVec 32} {sectorCount : BitVec 8}
    {buffer : List Word}
    (h : transferSectors (recording io) op fuel lba sectorCount buffer s = .ok s') :
    s'.2.address = lba.toNat % 2 ^ 28 := by
  cases op with
  | read =>
    obtain ⟨⟨buffer', u⟩, hread, hlast⟩ := Outcome.bind_eq_ok.mp h
    cases hlast
    have hregs : s'.2 = (sendCommand (recording io) lba sectorCount 0x20 s).2 :=
      Outcome.forRange_returned (fun _ (z : List Word × (σ × Registers)) =>
        z.2.2 = (sendCommand (recording io) lba sectorCount 0x20 s).2) rfl
        (fun i _ v w hv hturn => (registers_readSector hturn).trans hv) hread
    rw [hregs]
    exact address_sendCommand lba sectorCount 0x20
  | write =>
    obtain ⟨u, hloop, hflush⟩ := Outcome.bind_eq_ok.mp h
    have hregs : u.2 = (sendCommand (recording io) lba sectorCount 0x30 s).2 :=
      Outcome.forRange_returned (fun _ v =>
        v.2 = (sendCommand (recording io) lba sectorCount 0x30 s).2) rfl
        (fun i _ v w hv hturn => (registers_writeSector hturn).trans hv) hloop
    have hlast : s'.2 = Function.update u.2 0x1F7 0xE7 := registers_waitNotBusy hflush
    -- the flush goes to the command register only
    have hsame : s'.2.address = u.2.address := by
      rw [hlast]
      simp [Registers.address, Function.update]
    rw [hsame, hregs]
    exact address_sendCommand lba sectorCount 0x30

end Recording

section Aliases

variable {lba : BitVec 32} {sectorCount : BitVec 8} {buffer : List Word} {op : Operation}

/-- A machine whose status register always reads ready. -/
def ready : Ports Unit where
  inb _ _ := (0x50, ())
  inw _ _ := (0, ())
  outb _ _ _ := ()
  outw _ _ _ := ()

theorem waitNotBusy_ready (r : Registers) :
    waitNotBusy (recording ready) 1 ((), r) = .ok ((), r) := by
  have hbsy : (0x50 : BitVec 8) &&& 0x80 = 0 := by decide
  have hread : (recording ready).inb 0x1F7 ((), r) = (0x50, (), r) := rfl
  rw [waitNotBusy_succ, hread, if_neg (not_not_intro hbsy)]

theorem pollSector_ready (r : Registers) :
    pollSector (recording ready) 1 ((), r) = .ok (false, (), r) := by
  have herr : (0x50 : BitVec 8) &&& 0x01 = 0 := by decide
  have hread : (recording ready).inb 0x1F7 ((), r) = (0x50, (), r) := rfl
  rw [pollSector, waitNotBusy_ready, Outcome.ok_bind]
  simp only [hread]
  rw [if_neg (not_not_intro herr)]
  rfl

theorem readSector_ready (i : ℕ) (b : List Word) (r : Registers) :
    readSector (recording ready) 1 i (b, (), r) = .ok (b, (), r) := by
  rw [readSector, pollSector_ready]
  rfl

theorem writeSector_ready (i : ℕ) (b : List Word) (r : Registers) :
    writeSector (recording ready) 1 b i ((), r) = .ok ((), r) := by
  rw [writeSector, pollSector_ready]
  rfl

theorem programs_iff {a : ℕ} : Programs op lba sectorCount buffer a ↔ a = lba.toNat % 2 ^ 28 := by
  constructor
  · rintro ⟨σ, io, fuel, d, d', r, r', hrun, rfl⟩
    exact address_transferSectors hrun
  · rintro rfl
    have hreturns : ∃ s, transferSectors (recording ready) op 1 lba sectorCount buffer
        ((), fun _ => 0) = .ok s := by
      cases op with
      | read =>
        obtain ⟨⟨buffer', s⟩, hrun, -⟩ := Outcome.forRange_ok (fun _ _ => True)
          (sectorCounts sectorCount) (readSector (recording ready) 1)
          (buffer, sendCommand (recording ready) lba sectorCount 0x20 ((), fun _ => 0)) trivial
          fun i _ ⟨b, (), r⟩ _ => ⟨(b, (), r), readSector_ready i b r, trivial⟩
        exact ⟨s, Outcome.bind_eq_ok.mpr ⟨_, hrun, rfl⟩⟩
      | write =>
        obtain ⟨⟨⟨⟩, r⟩, hrun, -⟩ := Outcome.forRange_ok (fun _ _ => True)
          (sectorCounts sectorCount) (writeSector (recording ready) 1 buffer)
          (sendCommand (recording ready) lba sectorCount 0x30 ((), fun _ => 0)) trivial
          fun i _ ⟨(), r⟩ _ => ⟨((), r), writeSector_ready i buffer r, trivial⟩
        exact ⟨_, Outcome.bind_eq_ok.mpr ⟨_, hrun, waitNotBusy_ready (Function.update r 0x1F7 0xE7)⟩⟩
    obtain ⟨⟨d, r⟩, hrun⟩ := hreturns
    exact ⟨Unit, ready, 1, (), d, _, r, hrun, address_transferSectors hrun⟩

end Aliases

/-- Two calls that return program different sectors, and neither programs a lower
sector for an address that does not fit. -/
def NoAliasing (op op' : Operation) (lba lba' : BitVec 32) (sectorCount sectorCount' : BitVec 8)
    (buffer buffer' : List Word) : Prop :=
  ∀ a a', Programs op lba sectorCount buffer a → Programs op' lba' sectorCount' buffer' a' →
    a ≠ a' ∧ (2 ^ 28 ≤ lba.toNat → ¬a < lba.toNat) ∧ (2 ^ 28 ≤ lba'.toNat → ¬a' < lba'.toNat)

theorem noAliasing_iff {op op' : Operation} {lba lba' : BitVec 32} {sectorCount sectorCount' : BitVec 8}
    {buffer buffer' : List Word} (hne : lba ≠ lba') :
    NoAliasing op op' lba lba' sectorCount sectorCount' buffer buffer' ↔
      lba.toNat < 2 ^ 28 ∧ lba'.toNat < 2 ^ 28 := by
  have hne : lba.toNat ≠ lba'.toNat := fun h => hne (BitVec.eq_of_toNat_eq h)
  constructor
  · intro h
    obtain ⟨-, hlow, hlow'⟩ := h _ _ (programs_iff.mpr rfl) (programs_iff.mpr rfl)
    have hlt := Nat.mod_lt lba.toNat (show 0 < 2 ^ 28 by decide)
    have hlt' := Nat.mod_lt lba'.toNat (show 0 < 2 ^ 28 by decide)
    constructor
    · by_contra hge
      exact hlow (by omega) (by omega)
    · by_contra hge
      exact hlow' (by omega) (by omega)
  · rintro ⟨hfit, hfit'⟩ a a' ha ha'
    rw [programs_iff, Nat.mod_eq_of_lt hfit] at ha
    rw [programs_iff, Nat.mod_eq_of_lt hfit'] at ha'
    exact ⟨by omega, by omega, by omega⟩

/-- Calls with distinct sector numbers are kept apart exactly when both numbers fit
the 28 bits of the registers. -/
theorem no_aliasing_iff (op op' : Operation) (lba lba' : BitVec 32)
    (sectorCount sectorCount' : BitVec 8) (buffer buffer' : List Word) (hne : lba ≠ lba') :
    NoAliasing op op' lba lba' sectorCount sectorCount' buffer buffer' ↔
      lba.toNat < 2 ^ 28 ∧ lba'.toNat < 2 ^ 28 :=
  noAliasing_iff hne

theorem no_aliasing_iff_sample : NoAliasing .read .write 0x0FFFFFFF 0 1 1
    (List.replicate 256 0) (List.replicate 256 0xBEEF) :=
  (no_aliasing_iff .read .write 0x0FFFFFFF 0 1 1 _ _ (by decide)).mpr (by decide)

/-- No machine can tell the top four bits of the sector number. -/
theorem sendCommand_wraps {σ : Type} (io : Ports σ) (lba : BitVec 32) (sectorCount c : BitVec 8) :
    sendCommand io lba sectorCount c = sendCommand io (lba &&& 0x0FFFFFFF) sectorCount c := by
  have hmask : (lba &&& 0x0FFFFFFF).toNat = lba.toNat % 2 ^ 28 := by
    rw [BitVec.toNat_and]
    exact Nat.and_two_pow_sub_one_eq_mod _ 28
  have hlow : (lba &&& 0x0FFFFFFF).setWidth 8 = lba.setWidth 8 := by
    apply BitVec.eq_of_toNat_eq
    simp only [BitVec.toNat_setWidth, hmask]
    omega
  have hmid : ((lba &&& 0x0FFFFFFF) >>> 8).setWidth 8 = (lba >>> 8).setWidth 8 := by
    apply BitVec.eq_of_toNat_eq
    simp only [BitVec.toNat_setWidth, BitVec.toNat_ushiftRight, Nat.shiftRight_eq_div_pow, hmask]
    omega
  have hhigh : ((lba &&& 0x0FFFFFFF) >>> 16).setWidth 8 = (lba >>> 16).setWidth 8 := by
    apply BitVec.eq_of_toNat_eq
    simp only [BitVec.toNat_setWidth, BitVec.toNat_ushiftRight, Nat.shiftRight_eq_div_pow, hmask]
    omega
  have hnibble : ((lba &&& 0x0FFFFFFF) >>> 24) &&& (0x0F : BitVec 32) = (lba >>> 24) &&& 0x0F := by
    apply BitVec.eq_of_toNat_eq
    simp only [shifted_nibble, hmask]
    omega
  funext d
  simp only [sendCommand, driveByte, hlow, hmid, hhigh, hnibble]

/-- On a drive of 2^28 sectors a write to sector 2^28 returns and overwrites sector 0. -/
theorem high_lba_overwrites_sector_zero :
    ¬NoAliasing .write .write 0 0x10000000 1 1 (List.replicate 256 0)
        (List.replicate 256 0xBEEF) ∧
      ∃ fuel d',
        writeSectors ports fuel 0x10000000 1 (List.replicate 256 0xBEEF) sampleDevice = .ok d' ∧
        d'.sector 0 = List.replicate 256 0xBEEF := by
  refine ⟨fun h => ?_, ?_⟩
  · have hfit := (noAliasing_iff (by decide)).mp h
    exact absurd hfit.2 (by decide)
  · obtain ⟨fuel, hfuel⟩ := Device.exists_prompt sampleDevice (0 + 1 + sectorCounts 1 + 1)
    have hfit : (0 : BitVec 32).toNat + sectorCounts 1 ≤ 2 ^ 28 := by decide
    have hlen : (List.replicate 256 (0xBEEF : Word)).length = 256 * sectorCounts 1 := by
      rw [List.length_replicate]
      decide
    obtain ⟨d', hrun, -, hwords, -⟩ := writeSectors_ok (d := sampleDevice) (m := 0) ⟨rfl, rfl⟩ hfit
      hlen (hfuel fuel (Nat.le_refl _))
    refine ⟨fuel, d', ?_, ?_⟩
    · rw [writeSectors, sendCommand_wraps]
      exact hrun
    · have hsector : d'.sector (0 + 0) = _ :=
        sector_overlay (i := 0) hwords (by rw [List.length_replicate])
      rw [Nat.mul_zero, List.drop_zero, List.take_replicate, Nat.min_self] at hsector
      exact hsector

end KallarOS.Ata
