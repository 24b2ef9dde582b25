import KallarOS.AtaTransfers

namespace KallarOS.Ata

/-- What a controller has seen of the driver: the status reads through either port,
the words read from the data port, and the words written to it. -/
structure Tape where
  polls : ℕ
  reads : ℕ
  sent : List Word
deriving Repr, DecidableEq

def Tape.start : Tape := ⟨0, 0, []⟩

/-- A controller whose `k`-th status byte is `status k` and whose `k`-th word at the
data port is `data k`. -/
def scripted (status : ℕ → BitVec 8) (data : ℕ → Word) : Ports Tape where
  inb port t :=
    if port = 0x1F7 ∨ port = 0x3F6 then (status t.polls, { t with polls := t.polls + 1 })
    else (0xFF, t)
  inw port t :=
    if port = 0x1F0 then (data t.reads, { t with reads := t.reads + 1 }) else (0xFFFF, t)
  outb _ _ t := t
  outw port word t := if port = 0x1F0 then { t with sent := t.sent ++ [word] } else t

/-- From the `k`-th status byte on, the `q`-th is the first without BSY. -/
structure FirstIdle (status : ℕ → BitVec 8) (k q : ℕ) : Prop where
  le : k ≤ q
  busy : ∀ j, k ≤ j → j < q → status j &&& 0x80 ≠ 0
  idle : status q &&& 0x80 = 0

/-- The status bytes of one sector from the `k`-th on: BSY clears, the byte after it
has no ERR, and the one after that has DRQ or not. Four more are read and ignored. -/
def Poll (status : ℕ → BitVec 8) (k : ℕ) (drq : Bool) (k' : ℕ) : Prop :=
  ∃ q, FirstIdle status k q ∧ status (q + 1) &&& 0x01 = 0 ∧
    drq = decide (status (q + 2) &&& 0x08 ≠ 0) ∧ k' = q + 7

/-- The status bytes of sector after sector, with the DRQ bit each one showed. -/
inductive Polls (status : ℕ → BitVec 8) : List Bool → ℕ → Prop where
  | nil : Polls status [] 0
  | snoc {drqs : List Bool} {drq : Bool} {k k' : ℕ} : Polls status drqs k → Poll status k drq k' →
      Polls status (drqs ++ [drq]) k'

section Polling

variable {status : ℕ → BitVec 8} {data : ℕ → Word} {fuel : ℕ} {t t' : Tape}

theorem scripted_inb : (scripted status data).inb 0x1F7 t =
    (status t.polls, { t with polls := t.polls + 1 }) := rfl

theorem FirstIdle.of_idle {k q : ℕ} (hk : status k &&& 0x80 = 0) :
    FirstIdle status k q ↔ q = k := by
  constructor
  · intro h
    by_contra hne
    exact h.busy k (Nat.le_refl k) (lt_of_le_of_ne h.le (Ne.symm hne)) hk
  · rintro rfl
    exact ⟨Nat.le_refl q, fun j hj hj' => by omega, hk⟩

theorem FirstIdle.of_busy {k q : ℕ} (hk : status k &&& 0x80 ≠ 0) :
    FirstIdle status k q ↔ FirstIdle status (k + 1) q := by
  constructor
  · intro h
    have hne : q ≠ k := by
      rintro rfl
      exact hk h.idle
    have hle := h.le
    exact ⟨by omega, fun j hj hj' => h.busy j (by omega) hj', h.idle⟩
  · intro h
    have hle := h.le
    refine ⟨by omega, fun j hj hj' => ?_, h.idle⟩
    by_cases hjk : j = k
    · rw [hjk]
      exact hk
    · exact h.busy j (by omega) hj'

theorem waitNotBusy_scripted : waitNotBusy (scripted status data) fuel t = .ok t' ↔
    ∃ q, FirstIdle status t.polls q ∧ q < t.polls + fuel ∧ t' = { t with polls := q + 1 } := by
  induction fuel generalizing t with
  | zero =>
    constructor
    · intro h
      cases h
    · rintro ⟨q, hq, hlt, -⟩
      have hle := hq.le
      omega
  | succ fuel ih =>
    rw [waitNotBusy_succ, scripted_inb]
    by_cases hb : status t.polls &&& 0x80 = 0
    · rw [if_neg (not_not_intro hb)]
      simp only [FirstIdle.of_idle hb]
      constructor
      · intro h
        cases h
        exact ⟨t.polls, rfl, by omega, rfl⟩
      · rintro ⟨q, rfl, -, rfl⟩
        rfl
    · rw [if_pos hb, ih]
      -- one byte less to read, and one turn less to read it in
      simp only [FirstIdle.of_busy hb, Nat.add_assoc, Nat.add_comm 1]

theorem pollSector_after {u : Tape} (hwait : waitNotBusy (scripted status data) fuel t = .ok u) :
    pollSector (scripted status data) fuel t =
      if status u.polls &&& 0x01 ≠ 0 then .error (.panic "abort!\nError on ATA")
      else .ok (decide (status (u.polls + 1) &&& 0x08 ≠ 0), { u with polls := u.polls + 2 }) := by
  rw [pollSector, hwait]
  rfl

theorem pollSector_scripted {drq : Bool} :
    pollSector (scripted status data) fuel t = .ok (drq, t') ↔
      ∃ q, FirstIdle status t.polls q ∧ q < t.polls + fuel ∧ status (q + 1) &&& 0x01 = 0 ∧
        drq = decide (status (q + 2) &&& 0x08 ≠ 0) ∧ t' = { t with polls := q + 3 } := by
  constructor
  · intro h
    obtain ⟨u, hwait, -⟩ := Outcome.bind_eq_ok.mp h
    obtain ⟨q, hq, hlt, rfl⟩ := waitNotBusy_scripted.mp hwait
    rw [pollSector_after hwait] at h
    by_cases herr : status (q + 1) &&& 0x01 = 0
    · rw [if_neg (not_not_intro herr)] at h
      cases h
      exact ⟨q, hq, hlt, herr, rfl, rfl⟩
    · rw [if_pos herr] at h
      cases h
  · rintro ⟨q, hq, hlt, herr, rfl, rfl⟩
    rw [pollSector_after (waitNotBusy_scripted.mpr ⟨q, hq, hlt, rfl⟩), if_neg (not_not_intro herr)]

theorem poll_of_pollSector {drq : Bool}
    (h : pollSector (scripted status data) fuel t = .ok (drq, t')) :
    Poll status t.polls drq (t'.polls + 4) ∧ t'.reads = t.reads ∧ t'.sent = t.sent := by
  obtain ⟨q, hq, -, herr, hdrq, rfl⟩ := pollSector_scripted.mp h
  exact ⟨⟨q, hq, herr, hdrq, rfl⟩, rfl, rfl⟩

theorem pollSector_of_poll (data : ℕ → Word) {drq : Bool} {k : ℕ} (h : Poll status t.polls drq k) (hfuel : k ≤ fuel) :
    ∃ t', pollSector (scripted status data) fuel t = .ok (drq, t') ∧ t'.polls + 4 = k := by
  obtain ⟨q, hq, herr, hdrq, rfl⟩ := h
  exact ⟨_, pollSector_scripted.mpr ⟨q, hq, by omega, herr, hdrq, rfl⟩, rfl⟩

end Polling

section Loops

variable {α : Type} (tape : α → Tape) {body : ℕ → α → Outcome α} {inv : List Bool → α → Prop}
  {status : ℕ → BitVec 8} {data : ℕ → Word} {fuel n : ℕ} {x y : α}

/-- A loop whose turns begin with a poll, read backwards: it returned, so every poll
was answered, and the invariant knows how. -/
theorem polls_of_loop (hstart : inv [] x)
    (hturn : ∀ drqs x drq t', drqs.length < n → inv drqs x →
      pollSector (scripted status data) fuel (tape x) = .ok (drq, t') →
      ∃ y, body drqs.length x = .ok y ∧ inv (drqs ++ [drq]) y ∧ (tape y).polls = t'.polls + 4)
    (hpoll : ∀ i x y, body i x = .ok y → ∃ r, pollSector (scripted status data) fuel (tape x) = .ok r)
    (hrun : Outcome.forRange n body x = .ok y) : ∃ drqs, drqs.length = n ∧ inv drqs y := by
  refine Outcome.forRange_returned (fun i y => ∃ drqs, drqs.length = i ∧ inv drqs y)
    ⟨[], rfl, hstart⟩ (fun i hi u v => ?_) hrun
  rintro ⟨drqs, rfl, hinv⟩ hbody
  obtain ⟨⟨drq, t'⟩, hanswer⟩ := hpoll _ u v hbody
  obtain ⟨w, hw, hinv', -⟩ := hturn drqs u drq t' hi hinv hanswer
  cases hbody.symm.trans hw
  exact ⟨drqs ++ [drq], by simp, hinv'⟩

/-- The same loop read forwards: status bytes that answer every poll make it return. -/
theorem loop_of_polls {drqs : List Bool} {k : ℕ} (hpolls : Polls status drqs k)
    (hstart : inv [] x) (hzero : (tape x).polls = 0)
    (hturn : ∀ drqs x drq t', drqs.length < n → inv drqs x →
      pollSector (scripted status data) fuel (tape x) = .ok (drq, t') →
      ∃ y, body drqs.length x = .ok y ∧ inv (drqs ++ [drq]) y ∧ (tape y).polls = t'.polls + 4)
    (hn : drqs.length ≤ n) (hfuel : k ≤ fuel) :
    ∃ y, Outcome.forRange drqs.length body x = .ok y ∧ inv drqs y ∧ (tape y).polls = k := by
  induction hpolls with
  | nil => exact ⟨x, rfl, hstart, hzero⟩
  | @snoc drqs drq k k' hpolls hpoll ih =>
    rw [List.length_append, List.length_singleton] at hn ⊢
    have hlt : k < k' := by
      obtain ⟨q, hq, -, -, rfl⟩ := hpoll
      have := hq.le
      omega
    obtain ⟨u, hu, hinv, hk⟩ := ih (by omega) (by omega)
    obtain ⟨t', hanswer, rfl⟩ := pollSector_of_poll data (hk ▸ hpoll) hfuel
    obtain ⟨v, hv, hinv', hk'⟩ := hturn drqs u drq t' hn hinv hanswer
    exact ⟨v, by rw [Outcome.forRange, hu, Outcome.ok_bind, hv], hinv', hk'⟩

end Loops

/-- Where `read_sectors` stands after polls that showed `drqs`. -/
structure ReadSoFar (status : ℕ → BitVec 8) (data : ℕ → Word) (size : ℕ) (drqs : List Bool)
    (s : List Word × Tape) : Prop where
  polls : Polls status drqs s.2.polls
  reads : s.2.reads = 256 * drqs.count true
  length : s.1.length = size
  filled : false ∉ drqs → Filled data size (256 * drqs.length) s.1

/-- Where `write_sectors` stands after polls that showed `drqs`. -/
structure WriteSoFar (status : ℕ → BitVec 8) (buffer : List Word) (drqs : List Bool) (t : Tape) :
    Prop where
  polls : Polls status drqs t.polls
  length : t.sent.length = 256 * drqs.count true
  sent : false ∉ drqs → t.sent = buffer.take (256 * drqs.length)

section Sectors

variable {status : ℕ → BitVec 8} {data : ℕ → Word} {fuel size i : ℕ} {t t' : Tape}
  {buffer : List Word} {drqs : List Bool} {drq : Bool}

theorem readWord_scripted {j : ℕ} (hin : 256 * i + j < buffer.length) :
    readWord (scripted status data) i j (buffer, t) =
      .ok (buffer.set (256 * i + j) (data t.reads), { t with reads := t.reads + 1 }) := by
  have hstore : storeWord buffer (i * 256 + j) (data t.reads) =
      .ok (buffer.set (256 * i + j) (data t.reads)) := by
    rw [show i * 256 + j = 256 * i + j by omega]
    exact if_pos hin
  change (storeWord buffer (i * 256 + j) (data t.reads) >>= fun b =>
    Except.ok (b, { t with reads := t.reads + 1 })) = _
  rw [hstore]
  rfl

/-- The words of a sector that is not skipped go into its part of the buffer. -/
theorem readWords_scripted (status : ℕ → BitVec 8) (data : ℕ → Word) (t : Tape) (hroom : 256 * i + 256 ≤ buffer.length) :
    ∃ buffer', Outcome.forRange 256 (readWord (scripted status data) i) (buffer, t) =
        .ok (buffer', { t with reads := t.reads + 256 }) ∧
      buffer'.length = buffer.length ∧
      (t.reads = 256 * i → Filled data buffer.length (256 * i) buffer →
        Filled data buffer.length (256 * i + 256) buffer') := by
  obtain ⟨⟨buffer', _⟩, hrun, hlen, rfl, hfill⟩ := Outcome.forRange_ok
    (fun j (s : List Word × Tape) => s.1.length = buffer.length ∧
      s.2 = { t with reads := t.reads + j } ∧
      (t.reads = 256 * i → Filled data buffer.length (256 * i) buffer →
        Filled data buffer.length (256 * i + j) s.1))
    256 (readWord (scripted status data) i) (buffer, t) ⟨rfl, rfl, fun _ h => h⟩ (by
      rintro j hj ⟨b, _⟩ ⟨hlen, rfl, hfill⟩
      have hin : 256 * i + j < b.length := by
        simp only at hlen
        omega
      refine ⟨_, readWord_scripted hin, by rw [List.length_set]; exact hlen, rfl,
        fun hreads hstart => ?_⟩
      obtain ⟨b', hb', hfilled⟩ := (hfill hreads hstart).store (by omega)
      rw [storeWord, if_pos hin] at hb'
      cases hb'
      rw [hreads]
      exact hfilled)
  exact ⟨buffer', hrun, hlen, hfill⟩

theorem count_of_all (h : false ∉ drqs) : drqs.count true = drqs.length := by
  apply List.count_eq_length.mpr
  intro b hb
  cases b with
  | false => exact absurd hb h
  | true => rfl

theorem ReadSoFar.turn {s : List Word × Tape} (h : ReadSoFar status data size drqs s)
    (hroom : 256 * drqs.length + 256 ≤ size)
    (hpoll : pollSector (scripted status data) fuel s.2 = .ok (drq, t')) :
    ∃ s', readSector (scripted status data) fuel drqs.length s = .ok s' ∧
      ReadSoFar status data size (drqs ++ [drq]) s' ∧ s'.2.polls = t'.polls + 4 := by
  obtain ⟨buffer, t⟩ := s
  obtain ⟨hp, hreads, -⟩ := poll_of_pollSector hpoll
  have hpolls := h.polls.snoc hp
  have hlen : buffer.length = size := h.length
  cases drq with
  | false =>
    refine ⟨(buffer, { t' with polls := t'.polls + 4 }), ?_, ⟨hpolls, ?_, hlen, ?_⟩, rfl⟩
    · rw [readSector, hpoll]
      rfl
    · simpa [hreads] using h.reads
    · simp
  | true =>
    obtain ⟨buffer', hrun, hlen', hfill⟩ := readWords_scripted status data t' (hlen ▸ hroom)
    refine ⟨(buffer', { t' with polls := t'.polls + 4, reads := t'.reads + 256 }), ?_,
      ⟨hpolls, ?_, hlen'.trans hlen, fun hall => ?_⟩, rfl⟩
    · rw [readSector, hpoll]
      simp only [Outcome.ok_bind, if_true, hrun]
      rfl
    · rw [List.count_append, List.count_singleton_self, Nat.mul_add, ← h.reads, ← hreads]
    · have hall' : false ∉ drqs := fun hmem => hall (List.mem_append_left _ hmem)
      have hcount : t'.reads = 256 * drqs.length := by
        rw [hreads, h.reads, count_of_all hall']
      have hfilled := hfill hcount (hlen ▸ h.filled hall')
      rw [List.length_append, List.length_singleton, Nat.mul_add]
      exact hlen ▸ hfilled

theorem writeWords_scripted (hroom : 256 * i + 256 ≤ buffer.length) :
    Outcome.forRange 256 (writeWord (scripted status data) buffer i) t =
      .ok { t with sent := t.sent ++ (buffer.drop (256 * i)).take 256 } := by
  obtain ⟨_, hrun, rfl⟩ := Outcome.forRange_ok
    (fun j u => u = { t with sent := t.sent ++ (buffer.drop (256 * i)).take j })
    256 (writeWord (scripted status data) buffer i) t (by simp) (by
      rintro j hj _ rfl
      have hin : j < (buffer.drop (256 * i)).length := by
        rw [List.length_drop]
        omega
      have hload : loadWord buffer (i * 256 + j) = .ok (buffer.drop (256 * i))[j] := by
        rw [loadWord, show i * 256 + j = 256 * i + j by omega, List.getElem_drop,
          List.getElem?_eq_getElem]
      refine ⟨_, ?_, rfl⟩
      rw [writeWord, hload, ← List.take_append_getElem hin, ← List.append_assoc]
      rfl)
  exact hrun

theorem WriteSoFar.turn (h : WriteSoFar status buffer drqs t)
    (hroom : 256 * drqs.length + 256 ≤ buffer.length)
    (hpoll : pollSector (scripted status data) fuel t = .ok (drq, t')) :
    ∃ u, writeSector (scripted status data) fuel buffer drqs.length t = .ok u ∧
      WriteSoFar status buffer (drqs ++ [drq]) u ∧ u.polls = t'.polls + 4 := by
  obtain ⟨hp, -, hsent⟩ := poll_of_pollSector hpoll
  have hpolls := h.polls.snoc hp
  cases drq with
  | false =>
    refine ⟨{ t' with polls := t'.polls + 4 }, ?_, ⟨hpolls, ?_, ?_⟩, rfl⟩
    · rw [writeSector, hpoll]
      rfl
    · simpa [hsent] using h.length
    · simp
  | true =>
    refine ⟨⟨t'.polls + 4, t'.reads, t'.sent ++ (buffer.drop (256 * drqs.length)).take 256⟩, ?_,
      ⟨hpolls, ?_, fun hall => ?_⟩, rfl⟩
    · rw [writeSector, hpoll]
      simp only [Outcome.ok_bind, if_true, writeWords_scripted hroom]
      rfl
    · have hfull : ((buffer.drop (256 * drqs.length)).take 256).length = 256 := by
        rw [List.length_take, List.length_drop]
        omega
      rw [List.length_append, hfull, hsent, h.length, List.count_append,
        List.count_singleton_self, Nat.mul_add]
    · have hall' : false ∉ drqs := fun hmem => hall (List.mem_append_left _ hmem)
      rw [hsent, h.sent hall', List.length_append, List.length_singleton, Nat.mul_add,
        List.take_add]

end Sectors

section Skips

variable (status : ℕ → BitVec 8) (data : ℕ → Word) (lba : BitVec 32) (sectorCount : BitVec 8)
  (buffer : List Word)

/-- When `read_sectors` returns, 256 words for each sector have been read from the
data port, and the `k`-th of them stands at `buffer[k]`. -/
def ReadsAll : Prop :=
  ∀ fuel buffer' t,
    readSectors (scripted status data) fuel lba sectorCount buffer .start = .ok (buffer', t) →
    t.reads = 256 * sectorCounts sectorCount ∧
      ∀ k < 256 * sectorCounts sectorCount, buffer'[k]? = some (data k)

/-- When `write_sectors` returns, the words of all sectors have been written to the
data port, in the order of the buffer. -/
def WritesAll : Prop :=
  ∀ fuel t, writeSectors (scripted status data) fuel lba sectorCount buffer .start = .ok t →
    t.sent = buffer.take (256 * sectorCounts sectorCount)

/-- Unless a poll is stopped by ERR or by a BSY that never clears, each of the `n`
sectors finds DRQ set. -/
def DrqBeforeRead (n : ℕ) : Prop :=
  ∀ drqs k, Polls status drqs k → drqs.length = n → false ∉ drqs

/-- The same with the wait of the flush behind the last sector. -/
def DrqBeforeWrite (n : ℕ) : Prop :=
  ∀ drqs k q, Polls status drqs k → drqs.length = n → FirstIdle status k q → false ∉ drqs

variable {status data lba sectorCount buffer}

theorem exists_skip {drqs : List Bool} (h : false ∈ drqs) : drqs.count true < drqs.length := by
  have hne : drqs.count true ≠ drqs.length := by
    intro heq
    have htrue := List.count_eq_length.mp heq false h
    cases htrue
  exact lt_of_le_of_ne List.count_le_length hne

theorem readsAll_iff (hlen : 256 * sectorCounts sectorCount ≤ buffer.length) :
    ReadsAll status data lba sectorCount buffer ↔
      DrqBeforeRead status (sectorCounts sectorCount) := by
  have hstart : ReadSoFar status data buffer.length [] (buffer, Tape.start) :=
    ⟨.nil, rfl, rfl, fun _ => ⟨rfl, fun i hi => absurd hi (by simp)⟩⟩
  have hturn : ∀ fuel drqs (s : List Word × Tape) drq t', drqs.length < sectorCounts sectorCount →
      ReadSoFar status data buffer.length drqs s →
      pollSector (scripted status data) fuel s.2 = .ok (drq, t') →
      ∃ s', readSector (scripted status data) fuel drqs.length s = .ok s' ∧
        ReadSoFar status data buffer.length (drqs ++ [drq]) s' ∧ s'.2.polls = t'.polls + 4 :=
    fun fuel drqs s drq t' hlt h hpoll => h.turn (by omega) hpoll
  constructor
  · intro hall drqs k hpolls hn hskip
    obtain ⟨⟨buffer', t⟩, hrun, hinv, -⟩ := loop_of_polls Prod.snd hpolls hstart rfl
      (hturn k) hn.le (Nat.le_refl k)
    rw [hn] at hrun
    have hreads := (hall k buffer' t hrun).1
    have hfew := exists_skip hskip
    have hcount : t.reads = _ := hinv.reads
    omega
  · intro hready fuel buffer' t hrun
    obtain ⟨drqs, hn, hinv⟩ := polls_of_loop Prod.snd hstart (hturn fuel)
      (fun i x y hbody => (Outcome.bind_eq_ok.mp hbody).imp fun _ h => h.1) hrun
    have hnone := hready drqs _ hinv.polls hn
    refine ⟨?_, fun k hk => ?_⟩
    · rw [← hn, ← count_of_all hnone]
      exact hinv.reads
    · exact (hinv.filled hnone).word k (by rw [hn]; exact hk)

theorem writesAll_iff (hlen : 256 * sectorCounts sectorCount ≤ buffer.length) :
    WritesAll status data lba sectorCount buffer ↔
      DrqBeforeWrite status (sectorCounts sectorCount) := by
  have hstart : WriteSoFar status buffer [] Tape.start := ⟨.nil, rfl, fun _ => rfl⟩
  have hturn : ∀ fuel drqs (t : Tape) drq t', drqs.length < sectorCounts sectorCount →
      WriteSoFar status buffer drqs t →
      pollSector (scripted status data) fuel t = .ok (drq, t') →
      ∃ u, writeSector (scripted status data) fuel buffer drqs.length t = .ok u ∧
        WriteSoFar status buffer (drqs ++ [drq]) u ∧ u.polls = t'.polls + 4 :=
    fun fuel drqs t drq t' hlt h hpoll => h.turn (by omega) hpoll
  constructor
  · intro hall drqs k q hpolls hn hidle hskip
    obtain ⟨t, hrun, hinv, hk⟩ := loop_of_polls id hpolls hstart rfl
      (hturn (q + 1)) hn.le (by have := hidle.le; omega)
    have hk : t.polls = k := hk
    have hflush : flushCache (scripted status data) (q + 1) t = .ok { t with polls := q + 1 } :=
      waitNotBusy_scripted.mpr ⟨q, hk.symm ▸ hidle, by omega, rfl⟩
    have hsent := hall (q + 1) _ (by
      rw [writeSectors, ← hn]
      exact Outcome.bind_eq_ok.mpr ⟨t, hrun, hflush⟩)
    have hfew := exists_skip hskip
    have hcount := hinv.length
    have hlength : t.sent.length = 256 * sectorCounts sectorCount := by
      rw [show t.sent = _ from hsent, List.length_take]
      omega
    omega
  · intro hready fuel t hrun
    obtain ⟨u, hloop, hflush⟩ := Outcome.bind_eq_ok.mp hrun
    obtain ⟨drqs, hn, hinv⟩ := polls_of_loop id hstart (hturn fuel)
      (fun i x y hbody => (Outcome.bind_eq_ok.mp hbody).imp fun _ h => h.1) hloop
    obtain ⟨q, hidle, -, rfl⟩ := waitNotBusy_scripted.mp hflush
    have hsent := hinv.sent (hready drqs _ q hinv.polls hn hidle)
    rw [hn] at hsent
    exact hsent

end Skips

/-- Neither transfer skips a sector silently exactly when the drive shows DRQ at the
third status read of every sector. -/
theorem no_skipped_sector_iff (status : ℕ → BitVec 8) (data : ℕ → Word) (lba : BitVec 32)
    (sectorCount : BitVec 8) (buffer : List Word)
    (hlen : 256 * sectorCounts sectorCount ≤ buffer.length) :
    (ReadsAll status data lba sectorCount buffer ↔
        DrqBeforeRead status (sectorCounts sectorCount)) ∧
      (WritesAll status data lba sectorCount buffer ↔
        DrqBeforeWrite status (sectorCounts sectorCount)) :=
  ⟨readsAll_iff hlen, writesAll_iff hlen⟩

theorem no_skipped_sector_iff_sample :
    ReadsAll (fun _ => 0x58) (BitVec.ofNat 16) 7 2 (List.replicate 512 0) ∧
      WritesAll (fun _ => 0x58) (BitVec.ofNat 16) 7 2 (List.replicate 512 0) := by
  have hset : ∀ drqs k, Polls (fun _ => 0x58) drqs k → false ∉ drqs := by
    intro drqs k h
    induction h with
    | nil => simp
    | snoc _ hpoll ih =>
      obtain ⟨q, -, -, rfl, -⟩ := hpoll
      simpa using ih
  obtain ⟨hread, hwrite⟩ := no_skipped_sector_iff (fun _ => 0x58) (BitVec.ofNat 16) 7 2
    (List.replicate 512 0) (by rw [List.length_replicate]; decide)
  exact ⟨hread.mpr fun drqs k h _ => hset drqs k h, hwrite.mpr fun drqs k q h _ _ => hset drqs k h⟩

/-- A drive that is ready but slow to raise DRQ: both calls return with nothing moved. -/
theorem ready_without_drq_skips :
    readSectors (scripted (fun _ => 0x50) fun _ => 0xBEEF) 1 0 1 (List.replicate 256 0) .start =
        .ok (List.replicate 256 0, ⟨7, 0, []⟩) ∧
      writeSectors (scripted (fun _ => 0x50) fun _ => 0xBEEF) 1 0 1 (List.replicate 256 0) .start =
        .ok ⟨8, 0, []⟩ ∧
      ¬ReadsAll (fun _ => 0x50) (fun _ => 0xBEEF) 0 1 (List.replicate 256 0) ∧
      ¬WritesAll (fun _ => 0x50) (fun _ => 0xBEEF) 0 1 (List.replicate 256 0) := by
  have hread : readSectors (scripted (fun _ => 0x50) fun _ => 0xBEEF) 1 0 1
      (List.replicate 256 0) .start = .ok (List.replicate 256 0, ⟨7, 0, []⟩) := rfl
  have hwrite : writeSectors (scripted (fun _ => 0x50) fun _ => 0xBEEF) 1 0 1
      (List.replicate 256 0) .start = .ok ⟨8, 0, []⟩ := rfl
  refine ⟨hread, hwrite, fun h => ?_, fun h => ?_⟩
  · have hreads := (h 1 _ _ hread).1
    cases hreads
  · have hsent := congrArg List.length (h 1 _ hwrite)
    rw [List.length_take, List.length_replicate] at hsent
    cases hsent

end KallarOS.Ata
