import KallarOS.AtaDevice

namespace KallarOS.Ata
namespace Device

/-- The current busy period and the next `m` ones all end within `fuel` reads. -/
structure Prompt (fuel m : ℕ) (d : Device) : Prop where
  busy : d.busy < fuel
  delays : ∀ k < m, d.delays k < fuel

theorem Prompt.startBusy {fuel m : ℕ} {d : Device} (h : Prompt fuel (m + 1) d) :
    Prompt fuel m d.startBusy where
  busy := h.delays 0 (Nat.succ_pos m)
  delays := fun k hk => h.delays (k + 1) (Nat.succ_lt_succ hk)

theorem Prompt.mono {fuel m m' : ℕ} {d : Device} (h : Prompt fuel m d) (hm : m' ≤ m) :
    Prompt fuel m' d :=
  ⟨h.busy, fun k hk => h.delays k (hk.trans_le hm)⟩

theorem exists_prompt (d : Device) (m : ℕ) : ∃ fuel₀, ∀ fuel ≥ fuel₀, Prompt fuel m d := by
  refine ⟨d.busy + (Finset.range m).sup d.delays + 1, fun fuel hfuel => ⟨by omega, ?_⟩⟩
  intro k hk
  have hle : d.delays k ≤ (Finset.range m).sup d.delays :=
    Finset.le_sup (f := d.delays) (Finset.mem_range.mpr hk)
  omega

theorem status_busy {d : Device} (h : 0 < d.busy) : d.status = 0x80 := if_pos h

theorem status_ready {d : Device} (h : d.busy = 0) (he : d.error = false) :
    d.status = if d.transfer = .none then 0x40 else 0x48 := by
  unfold status
  rw [if_neg (by omega), he]
  split <;> decide

theorem status_notBusy {d : Device} (h : d.busy = 0) : d.status &&& 0x80 = 0 := by
  unfold status
  rw [if_neg (by omega)]
  split <;> split <;> decide

@[simp] theorem setBusy_busy (d : Device) (k : ℕ) : (d.setBusy k).busy = k := rfl
@[simp] theorem setBusy_words (d : Device) (k : ℕ) : (d.setBusy k).words = d.words := rfl
@[simp] theorem setBusy_transfer (d : Device) (k : ℕ) : (d.setBusy k).transfer = d.transfer := rfl
@[simp] theorem setBusy_error (d : Device) (k : ℕ) : (d.setBusy k).error = d.error := rfl
@[simp] theorem setBusy_setBusy (d : Device) (k k' : ℕ) : (d.setBusy k).setBusy k' = d.setBusy k' := rfl

theorem Prompt.setBusy {fuel m k : ℕ} {d : Device} (h : Prompt fuel m d) (hk : k ≤ d.busy) :
    Prompt fuel m (d.setBusy k) :=
  ⟨hk.trans_lt h.busy, h.delays⟩

end Device

open Device

variable {fuel m : ℕ} {d : Device}

theorem inb_status (d : Device) : ports.inb 0x1F7 d = (d.status, d.setBusy (d.busy - 1)) := rfl

theorem inb_alternate (d : Device) : ports.inb 0x3F6 d = (d.status, d.setBusy (d.busy - 1)) := rfl

theorem waitNotBusy_eq (h : d.busy < fuel) : waitNotBusy ports fuel d = .ok (d.setBusy 0) := by
  induction fuel generalizing d with
  | zero => exact absurd h (Nat.not_lt_zero _)
  | succ fuel ih =>
    rw [waitNotBusy_succ]
    by_cases hb : d.busy = 0
    · have hs : (ports.inb 0x1F7 d).1 &&& 0x80 = 0 := status_notBusy hb
      rw [if_neg (not_not_intro hs), inb_status, hb]
    · have hs : (ports.inb 0x1F7 d).1 = 0x80 := status_busy (Nat.pos_of_ne_zero hb)
      rw [if_pos (by rw [hs]; decide), inb_status, ih (by rw [setBusy_busy]; omega), setBusy_setBusy]

theorem pollSector_eq (h : d.busy < fuel) (he : d.error = false) (ht : d.transfer ≠ .none) :
    pollSector ports fuel d = .ok (true, d.setBusy 0) := by
  have hs : (d.setBusy 0).status = 0x48 := by
    rw [status_ready (setBusy_busy d 0) he, setBusy_transfer, if_neg ht]
  have hread : ports.inb 0x1F7 (d.setBusy 0) = (0x48, d.setBusy 0) := by
    rw [inb_status, hs, setBusy_busy, setBusy_setBusy]
  rw [pollSector, waitNotBusy_eq h, Outcome.ok_bind]
  simp only [hread]
  rfl

theorem readAlternate_eq (d : Device) : readAlternate ports d = d.setBusy (d.busy - 4) := by
  simp only [readAlternate, inb_alternate, setBusy_busy, setBusy_setBusy, Nat.sub_sub]

/-- The four register bytes spell the sector number back. -/
theorem address_bytes (lba : BitVec 32) :
    (lba.setWidth 8).toNat + 2 ^ 8 * ((lba >>> 8).setWidth 8).toNat +
      2 ^ 16 * ((lba >>> 16).setWidth 8).toNat + 2 ^ 24 * (lba >>> 24).toNat = lba.toNat := by
  simp only [BitVec.toNat_setWidth, BitVec.toNat_ushiftRight, Nat.shiftRight_eq_div_pow]
  omega

theorem driveByte_bits (lba : BitVec 32) (h : lba.toNat < 2 ^ 28) :
    (driveByte lba &&& 0x0F).toNat = (lba >>> 24).toNat ∧ driveByte lba &&& 0x40 ≠ 0 ∧
      driveByte lba &&& 0x10 = 0 := by
  have hx : (lba >>> 24).toNat < 16 := by
    simp only [BitVec.toNat_ushiftRight, Nat.shiftRight_eq_div_pow]
    omega
  unfold driveByte
  obtain ⟨v, hv, hlba⟩ : ∃ v < 16, lba >>> 24 = BitVec.ofNat 32 v :=
    ⟨_, hx, by rw [BitVec.ofNat_toNat, BitVec.setWidth_eq]⟩
  rw [hlba]
  interval_cases v <;> decide

/-- What both commands leave behind: the transfer is under way from `lba`. -/
structure Begun (d : Device) (t : Transfer) (d' : Device) : Prop where
  words : d'.words = d.words
  transfer : d'.transfer = t
  error : d'.error = false
  busy : d'.busy = d.delays 0
  delays : d'.delays = fun k => d.delays (k + 1)
  drive : d'.drive &&& 0x10 = 0

theorem Begun.prompt {t : Transfer} {d' : Device} (h : Begun d t d') (hp : Prompt fuel (m + 1) d) :
    Prompt fuel m d' := by
  constructor
  · rw [h.busy]
    exact hp.delays 0 (Nat.succ_pos m)
  · intro k hk
    rw [h.delays]
    exact hp.delays (k + 1) (Nat.succ_lt_succ hk)

theorem sectorCounts_pos (sectorCount : BitVec 8) : 0 < sectorCounts sectorCount := by
  unfold sectorCounts
  split
  · omega
  · rename_i h
    exact Nat.pos_of_ne_zero fun h0 => h (BitVec.eq_of_toNat_eq (by simpa using h0))

theorem exists_sectorCounts (sectorCount : BitVec 8) : ∃ m, sectorCounts sectorCount = m + 1 :=
  ⟨_, (Nat.succ_pred_eq_of_pos (sectorCounts_pos sectorCount)).symm⟩

theorem sendCommand_begun (hd : d.Idle) {lba : BitVec 32} {sectorCount c : BitVec 8}
    (hfit : lba.toNat + sectorCounts sectorCount ≤ 2 ^ 28) (t : ℕ → ℕ → ℕ → Transfer)
    (hc : ∀ d : Device, d.command c = d.begin (t d.address d.sectorTotal 0)) :
    Begun d (t lba.toNat (sectorCounts sectorCount) 0) (sendCommand ports lba sectorCount c d) := by
  have hpos := sectorCounts_pos sectorCount
  obtain ⟨hlow, hlba, hslave⟩ := driveByte_bits lba (by omega)
  have hreg : sendCommand ports lba sectorCount c d = Device.command
      { d with
        count := sectorCount, low := lba.setWidth 8, mid := (lba >>> 8).setWidth 8,
        high := (lba >>> 16).setWidth 8, drive := driveByte lba } c := by
    have hsel : driveByte lba &&& 16#8 = 0#8 := hslave
    simp [sendCommand, ports, Device.outb, hd.transfer, hd.busy, hsel]
  have haddr : Device.address
      { d with
        count := sectorCount, low := lba.setWidth 8, mid := (lba >>> 8).setWidth 8,
        high := (lba >>> 16).setWidth 8, drive := driveByte lba } = lba.toNat := by
    unfold Device.address
    rw [hlow]
    exact address_bytes lba
  rw [hreg, hc, Device.begin, haddr]
  rw [if_pos ⟨hlba, by rw [haddr]; exact hfit⟩]
  exact ⟨rfl, rfl, rfl, rfl, rfl, hslave⟩

/-- The first `k` words of the buffer have arrived. -/
structure Filled (f : ℕ → Word) (size k : ℕ) (buffer : List Word) : Prop where
  length : buffer.length = size
  word : ∀ i < k, buffer[i]? = some (f i)

theorem Filled.store {f : ℕ → Word} {size k : ℕ} {buffer : List Word} (h : Filled f size k buffer)
    (hk : k < size) :
    ∃ buffer', storeWord buffer k (f k) = .ok buffer' ∧ Filled f size (k + 1) buffer' := by
  have hlt : k < buffer.length := by rw [h.length]; exact hk
  refine ⟨buffer.set k (f k), if_pos hlt, by rw [List.length_set, h.length], ?_⟩
  intro i hi
  by_cases hik : i = k
  · subst hik
    exact List.getElem?_set_self hlt
  · rw [List.getElem?_set_ne (Ne.symm hik)]
    exact h.word i (by omega)

/-- Where `read_sectors` stands between two sectors: `i` of the `n` sectors from
`first` on are in the buffer. -/
structure ReadAt (words : ℕ → Word) (fuel m first n i : ℕ) (s : List Word × Device) : Prop where
  filled : Filled (fun k => words (256 * first + k)) (256 * n) (256 * i) s.1
  words : s.2.words = words
  error : s.2.error = false
  transfer : s.2.transfer = if i < n then .reading (first + i) (n - i) 0 else .none
  idle : n ≤ i → s.2.busy = 0
  prompt : Prompt fuel (m + (n - i)) s.2

section Turns
variable {words : ℕ → Word} {first n i : ℕ}

/-- One word through the data port. -/
theorem readWord_eq {buffer : List Word} {d : Device} {j left : ℕ} (hw : d.words = words)
    (hb : d.busy = 0) (hj : j < 256) (hi : i < n)
    (h : Filled (fun k => words (256 * first + k)) (256 * n) (256 * i + j) buffer) :
    ∃ buffer', readWord ports i j (buffer, d.readUpTo (first + i) left j) =
        .ok (buffer', d.readUpTo (first + i) left (j + 1)) ∧
      Filled (fun k => words (256 * first + k)) (256 * n) (256 * i + (j + 1)) buffer' := by
  obtain ⟨buffer', hs, hf⟩ := h.store (by omega)
  refine ⟨buffer', ?_, hf⟩
  have hread : ports.inw 0x1F0 (d.readUpTo (first + i) left j) =
      (words (256 * first + (256 * i + j)), d.readUpTo (first + i) left (j + 1)) := by
    subst hw
    simp only [readUpTo, if_pos hj, ports, Device.inw, hb, and_self, if_true]
    rw [show 256 * (first + i) + j = 256 * first + (256 * i + j) by omega]
  simp only [readWord, hread, show i * 256 + j = 256 * i + j by omega, hs, Outcome.ok_bind]

theorem ReadAt.turn {s : List Word × Device} (h : ReadAt words fuel m first n i s) (hi : i < n) :
    ∃ s', readSector ports fuel i s = .ok s' ∧ ReadAt words fuel m first n (i + 1) s' := by
  obtain ⟨buffer, d⟩ := s
  have ht : d.transfer = .reading (first + i) (n - i) 0 := by rw [h.transfer, if_pos hi]
  have hstart : d.setBusy 0 = (d.setBusy 0).readUpTo (first + i) (n - i) 0 := by
    simp only [readUpTo, Nat.zero_lt_succ, if_true, setBusy, ht]
  obtain ⟨⟨buffer', d'⟩, hloop, hf, rfl⟩ := Outcome.forRange_ok
    (fun j (s : List Word × Device) =>
      Filled (fun k => words (256 * first + k)) (256 * n) (256 * i + j) s.1 ∧
        s.2 = (d.setBusy 0).readUpTo (first + i) (n - i) j)
    256 (readWord ports i) (buffer, d.setBusy 0) ⟨h.filled, hstart⟩ (by
      rintro j hj ⟨b, e⟩ ⟨hb, rfl⟩
      obtain ⟨b', hb', hf'⟩ := readWord_eq (d := d.setBusy 0) h.words rfl hj hi hb
      exact ⟨_, hb', hf', rfl⟩)
  have hpoll : pollSector ports fuel d = .ok (true, d.setBusy 0) :=
    pollSector_eq h.prompt.busy h.error (by rw [ht]; nofun)
  refine ⟨(buffer', readAlternate ports ((d.setBusy 0).readUpTo (first + i) (n - i) 256)), ?_, ?_⟩
  · simp only [readSector, hpoll, Outcome.ok_bind, if_true, hloop]
  · rw [readAlternate_eq]
    have hp : Prompt fuel (m + (n - i)) (d.setBusy 0) := h.prompt.setBusy (Nat.zero_le _)
    by_cases hlast : n - i = 1
    · have hd : (d.setBusy 0).readUpTo (first + i) (n - i) 256 =
          { d.setBusy 0 with transfer := .none } := by
        rw [readUpTo, if_neg (by omega), if_pos hlast]
      rw [hd]
      exact ⟨hf, h.words, h.error, by rw [if_neg (by omega)]; rfl, fun _ => rfl,
        ⟨hp.busy, (hp.mono (by omega)).delays⟩⟩
    · have hd : (d.setBusy 0).readUpTo (first + i) (n - i) 256 =
          startBusy { d.setBusy 0 with transfer := .reading (first + i + 1) (n - i - 1) 0 } := by
        rw [readUpTo, if_neg (by omega), if_neg hlast]
      rw [hd]
      refine ⟨hf, h.words, h.error, ?_, fun _ => by omega, ?_⟩
      · rw [if_pos (by omega), Nat.sub_add_eq]
        rfl
      · have hp' : Prompt fuel (m + (n - (i + 1)) + 1) (d.setBusy 0) := hp.mono (by omega)
        exact Prompt.setBusy (d := startBusy
          { d.setBusy 0 with transfer := .reading (first + i + 1) (n - i - 1) 0 })
          ⟨hp'.startBusy.busy, hp'.startBusy.delays⟩ (Nat.sub_le _ _)

end Turns

/-- The disk contents with `ws` laid over them from word `a` on. -/
def overlay (words : ℕ → Word) (a : ℕ) (ws : List Word) (x : ℕ) : Word :=
  if a ≤ x then (ws[x - a]?).getD (words x) else words x

theorem overlay_nil (words : ℕ → Word) (a : ℕ) : overlay words a [] = words := by
  funext x
  simp [overlay]

theorem overlay_snoc (words : ℕ → Word) (a : ℕ) (ws : List Word) (w : Word) :
    Function.update (overlay words a ws) (a + ws.length) w = overlay words a (ws ++ [w]) := by
  funext x
  by_cases hx : x = a + ws.length
  · subst hx
    simp [overlay]
  · rw [Function.update_of_ne hx]
    unfold overlay
    by_cases hax : a ≤ x
    · rw [if_pos hax, if_pos hax]
      by_cases hlt : x - a < ws.length
      · rw [List.getElem?_append_left hlt]
      · rw [List.getElem?_eq_none (by omega), List.getElem?_eq_none (by simp; omega)]
    · rw [if_neg hax, if_neg hax]

/-- Where `write_sectors` stands between two sectors: `i` of the `n` sectors from
`first` on hold the words of the buffer. -/
structure WriteAt (words : ℕ → Word) (buffer : List Word) (fuel m first n i : ℕ) (d : Device) :
    Prop where
  words : d.words = overlay words (256 * first) (buffer.take (256 * i))
  error : d.error = false
  transfer : d.transfer = if i < n then .writing (first + i) (n - i) 0 else .none
  drive : d.drive &&& 0x10 = 0
  prompt : Prompt fuel (m + (n - i)) d

section Turns
variable {words : ℕ → Word} {buffer : List Word} {first n i : ℕ}

/-- The device once `j` words of the sector have been sent. -/
def sent (words : ℕ → Word) (buffer : List Word) (first n i : ℕ) (d : Device) (j : ℕ) : Device :=
  writtenUpTo { d with words := overlay words (256 * first) (buffer.take (256 * i + j)) }
    (first + i) (n - i) j

theorem writeWord_eq {d : Device} {j : ℕ} (hb : d.busy = 0) (hj : j < 256) (hi : i < n)
    (hlen : buffer.length = 256 * n) :
    writeWord ports buffer i j (sent words buffer first n i d j) =
      .ok (sent words buffer first n i d (j + 1)) := by
  have hlt : 256 * i + j < buffer.length := by omega
  have hload : loadWord buffer (i * 256 + j) = .ok buffer[256 * i + j] := by
    rw [loadWord, show i * 256 + j = 256 * i + j by omega, List.getElem?_eq_getElem hlt]
  have htake : (buffer.take (256 * i + j)).length = 256 * i + j := by
    rw [List.length_take]
    omega
  have hupd : Function.update (overlay words (256 * first) (buffer.take (256 * i + j)))
      (256 * (first + i) + j) buffer[256 * i + j] =
      overlay words (256 * first) (buffer.take (256 * i + (j + 1))) := by
    rw [show 256 * (first + i) + j = 256 * first + (buffer.take (256 * i + j)).length by
      rw [htake]; omega]
    rw [overlay_snoc, ← Nat.add_assoc, List.take_append_getElem hlt]
  rw [writeWord, hload, Outcome.ok_bind]
  simp only [sent, ports, Device.outw, writtenUpTo, if_pos hj, hb, and_self, if_true, hupd]

theorem WriteAt.turn {d : Device} (h : WriteAt words buffer fuel m first n i d) (hi : i < n)
    (hlen : buffer.length = 256 * n) :
    ∃ d', writeSector ports fuel buffer i d = .ok d' ∧
      WriteAt words buffer fuel m first n (i + 1) d' := by
  have ht : d.transfer = .writing (first + i) (n - i) 0 := by rw [h.transfer, if_pos hi]
  have hstart : d.setBusy 0 = sent words buffer first n i (d.setBusy 0) 0 := by
    simp only [sent, writtenUpTo, Nat.zero_lt_succ, if_true, setBusy, Nat.add_zero, ← ht, ← h.words]
  obtain ⟨d', hloop, rfl⟩ := Outcome.forRange_ok
    (fun j e => e = sent words buffer first n i (d.setBusy 0) j)
    256 (writeWord ports buffer i) (d.setBusy 0) hstart (by
      rintro j hj e rfl
      exact ⟨_, writeWord_eq rfl hj hi hlen, rfl⟩)
  have hpoll : pollSector ports fuel d = .ok (true, d.setBusy 0) :=
    pollSector_eq h.prompt.busy h.error (by rw [ht]; nofun)
  refine ⟨readAlternate ports (sent words buffer first n i (d.setBusy 0) 256), ?_, ?_⟩
  · simp only [writeSector, hpoll, Outcome.ok_bind, if_true, hloop]
  · rw [readAlternate_eq]
    have hp : Prompt fuel (m + (n - (i + 1)) + 1) (d.setBusy 0) :=
      (h.prompt.setBusy (Nat.zero_le _)).mono (by omega)
    -- Both ends of a sector start a busy period; only the transfer differs.
    obtain ⟨t, hd, hnext⟩ : ∃ t, sent words buffer first n i (d.setBusy 0) 256 =
        startBusy { d.setBusy 0 with
          words := overlay words (256 * first) (buffer.take (256 * i + 256)), transfer := t } ∧
        t = if i + 1 < n then .writing (first + (i + 1)) (n - (i + 1)) 0 else .none := by
      by_cases hlast : n - i = 1
      · refine ⟨.none, ?_, by rw [if_neg (by omega)]⟩
        rw [sent, writtenUpTo, if_neg (by omega), if_pos hlast]
      · refine ⟨.writing (first + i + 1) (n - i - 1) 0, ?_, ?_⟩
        · rw [sent, writtenUpTo, if_neg (by omega), if_neg hlast]
        · rw [if_pos (by omega), Nat.sub_add_eq, Nat.add_assoc]
    rw [hd]
    exact ⟨rfl, h.error, hnext, h.drive,
      ⟨(Nat.sub_le _ _).trans_lt hp.startBusy.busy, hp.startBusy.delays⟩⟩

end Turns

theorem readSectors_ok (hd : d.Idle) {lba : BitVec 32} {sectorCount : BitVec 8} {out : List Word}
    (hfit : lba.toNat + sectorCounts sectorCount ≤ 2 ^ 28)
    (hlen : out.length = 256 * sectorCounts sectorCount)
    (hp : Prompt fuel (m + sectorCounts sectorCount + 1) d) :
    ∃ out' d', readSectors ports fuel lba sectorCount out d = .ok (out', d') ∧
      d'.Idle ∧ d'.words = d.words ∧ Prompt fuel m d' ∧
      Filled (fun k => d.words (256 * lba.toNat + k)) out.length out.length out' := by
  have hbegun := sendCommand_begun hd hfit Transfer.reading (c := 0x20) fun _ => rfl
  have hzero : 0 < sectorCounts sectorCount := sectorCounts_pos sectorCount
  obtain ⟨⟨out', d'⟩, hrun, h⟩ := Outcome.forRange_ok
    (ReadAt d.words fuel m lba.toNat (sectorCounts sectorCount)) (sectorCounts sectorCount)
    (readSector ports fuel) (out, sendCommand ports lba sectorCount 0x20 d)
    ⟨⟨hlen, fun i hi => absurd hi (by omega)⟩, hbegun.words, hbegun.error,
      by rw [hbegun.transfer, if_pos hzero]; rfl, fun h => by omega, hbegun.prompt hp⟩
    fun i hi s h => h.turn hi
  refine ⟨out', d', hrun, ⟨?_, h.idle (Nat.le_refl _)⟩, h.words, ?_, ?_⟩
  · rw [h.transfer, if_neg (Nat.lt_irrefl _)]
  · exact h.prompt.mono (Nat.le_add_right _ _)
  · rw [hlen]
    exact h.filled

theorem writeSectors_ok (hd : d.Idle) {lba : BitVec 32} {sectorCount : BitVec 8}
    {buffer : List Word} (hfit : lba.toNat + sectorCounts sectorCount ≤ 2 ^ 28)
    (hlen : buffer.length = 256 * sectorCounts sectorCount)
    (hp : Prompt fuel (m + 1 + sectorCounts sectorCount + 1) d) :
    ∃ d', writeSectors ports fuel lba sectorCount buffer d = .ok d' ∧
      d'.Idle ∧ d'.words = overlay d.words (256 * lba.toNat) buffer ∧ Prompt fuel m d' := by
  have hbegun := sendCommand_begun hd hfit Transfer.writing (c := 0x30) fun _ => rfl
  have hzero : 0 < sectorCounts sectorCount := sectorCounts_pos sectorCount
  obtain ⟨e, hrun, h⟩ := Outcome.forRange_ok
    (WriteAt d.words buffer fuel (m + 1) lba.toNat (sectorCounts sectorCount))
    (sectorCounts sectorCount) (writeSector ports fuel buffer)
    (sendCommand ports lba sectorCount 0x30 d)
    ⟨by rw [hbegun.words, Nat.mul_zero, List.take_zero, overlay_nil], hbegun.error,
      by rw [hbegun.transfer, if_pos hzero]; rfl, hbegun.drive, hbegun.prompt hp⟩
    fun i hi s h => h.turn hi hlen
  have ht : e.transfer = .none := by rw [h.transfer, if_neg (Nat.lt_irrefl _)]
  have hflush : ports.outb 0x1F7 0xE7 e = startBusy { e with error := false } := by
    change Device.outb 0x1F7 0xE7 e = _
    rw [Device.outb, if_neg (not_not_intro ht), if_pos rfl, if_pos ⟨Or.inr rfl, h.drive⟩]
    rfl
  have hp' : Prompt fuel m (startBusy { e with error := false }) :=
    Prompt.startBusy ⟨h.prompt.busy, (h.prompt.mono (Nat.le_add_right _ _)).delays⟩
  refine ⟨(startBusy { e with error := false }).setBusy 0, ?_, ⟨ht, rfl⟩, ?_,
    hp'.setBusy (Nat.zero_le _)⟩
  · rw [writeSectors, hrun, Outcome.ok_bind, flushCache, hflush, waitNotBusy_eq hp'.busy]
  · refine h.words.trans ?_
    rw [List.take_of_length_le (Nat.le_of_eq hlen)]

theorem sector_overlay {e : Device} {first : ℕ} {buffer : List Word}
    (h : e.words = overlay d.words (256 * first) buffer) {i : ℕ}
    (hi : 256 * i + 256 ≤ buffer.length) :
    e.sector (first + i) = (buffer.drop (256 * i)).take 256 := by
  apply List.ext_getElem
  · simp only [sector, List.length_map, List.length_range, List.length_take, List.length_drop]
    omega
  · intro w hw hw'
    have hw256 : w < 256 := by simpa [sector] using hw
    have hx : 256 * (first + i) + w - 256 * first = 256 * i + w := by omega
    simp only [sector, List.getElem_map, List.getElem_range, h, overlay, hx]
    rw [if_pos (by omega), List.getElem?_eq_getElem (by omega), Option.getD_some]
    simp

theorem sector_overlay_outside {e : Device} {first n : ℕ} {buffer : List Word}
    (h : e.words = overlay d.words (256 * first) buffer) (hn : buffer.length = 256 * n) {s : ℕ}
    (hs : s < first ∨ first + n ≤ s) : e.sector s = d.sector s := by
  apply List.map_congr_left
  intro w hw
  have hw256 : w < 256 := List.mem_range.mp hw
  rw [h, overlay]
  split
  · rw [List.getElem?_eq_none (by omega), Option.getD_none]
  · rfl

/-- Every range of sectors reads back as it was written, whatever the timing of
the drive, and no other sector changes. -/
theorem write_then_read (d : Device) (hd : d.Idle) (lba : BitVec 32) (sectorCount : BitVec 8)
    (hfit : lba.toNat + sectorCounts sectorCount ≤ 2 ^ 28) (buffer out : List Word)
    (hbuffer : buffer.length = 256 * sectorCounts sectorCount)
    (hout : out.length = 256 * sectorCounts sectorCount) :
    ∃ fuel₀, ∀ fuel ≥ fuel₀, ∃ d' d'',
      writeSectors ports fuel lba sectorCount buffer d = .ok d' ∧
      (∀ i < sectorCounts sectorCount,
        d'.sector (lba.toNat + i) = (buffer.drop (256 * i)).take 256) ∧
      (∀ s, s < lba.toNat ∨ lba.toNat + sectorCounts sectorCount ≤ s → d'.sector s = d.sector s) ∧
      readSectors ports fuel lba sectorCount out d' = .ok (buffer, d'') ∧
      d''.words = d'.words := by
  let n := sectorCounts sectorCount
  obtain ⟨fuel₀, hfuel⟩ := exists_prompt d (n + 1 + 1 + n + 1)
  refine ⟨fuel₀, fun fuel hge => ?_⟩
  obtain ⟨d', hwrite, hidle, hwords, hp⟩ := writeSectors_ok hd hfit hbuffer (hfuel fuel hge)
  obtain ⟨out', d'', hread, -, hsame, -, hfilled⟩ := readSectors_ok (m := 0) hidle hfit hout
    (hp.mono (by omega))
  have hback : out' = buffer := by
    apply List.ext_getElem?
    intro k
    by_cases hk : k < out.length
    · have hkb : k < buffer.length := by omega
      rw [hfilled.word k hk, hwords, overlay, if_pos (Nat.le_add_right _ _), Nat.add_sub_cancel_left,
        List.getElem?_eq_getElem hkb, Option.getD_some]
    · rw [List.getElem?_eq_none (by rw [hfilled.length]; omega), List.getElem?_eq_none (by omega)]
  refine ⟨d', d'', hwrite, fun i hi => sector_overlay hwords (by omega), ?_, ?_, hsame⟩
  · exact fun s hs => sector_overlay_outside hwords hbuffer hs
  · rw [hread, hback]

/-- A drive with contents all zero, at rest, busy for ever longer periods. -/
def sampleDevice : Device :=
  ⟨fun _ => 0, 0, 0, 0, 0, 0, .none, 0, fun k => k, false⟩

/-- The last 256 sectors, for which the count register holds 0. -/
theorem write_then_read_sample :
    let buffer : List Word := List.replicate 65536 0xBEEF
    ∃ fuel₀, ∀ fuel ≥ fuel₀, ∃ d' d'',
      writeSectors ports fuel 0xFFFFF00 0 buffer sampleDevice = .ok d' ∧
      (∀ i < 256, d'.sector (0xFFFFF00 + i) = (buffer.drop (256 * i)).take 256) ∧
      (∀ s, s < 0xFFFFF00 ∨ 0xFFFFF00 + 256 ≤ s → d'.sector s = sampleDevice.sector s) ∧
      readSectors ports fuel 0xFFFFF00 0 (List.replicate 65536 0) d' = .ok (buffer, d'') ∧
      d''.words = d'.words :=
  write_then_read sampleDevice ⟨rfl, rfl⟩ 0xFFFFF00 0 (by decide) _ _
    (by rw [List.length_replicate]; rfl) (by rw [List.length_replicate]; rfl)

end KallarOS.Ata
