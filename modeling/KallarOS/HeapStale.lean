import KallarOS.HeapRequests

namespace KallarOS.Heap
open ByteMemory Chains Tilings Pmm Paging Function Relation

section Panicking

/-- A heap routine whose state is still there after a panic. -/
abbrev Panicking := EStateM Stop HeapState

namespace Panicking

/-- `kfree` with the heap in which it panics. -/
def kfree (address : ℕ) : Panicking Unit := do
  let current := sub32 address headerSize
  if (← get).sizeAndFlags current % 2 = 1 then
    throw (.panic "USE AFTER FREE!")
  else
    modify fun h => h.setSizeAndFlags current (setFlag (h.sizeAndFlags current))
    let h ← get
    match scan 0 h.nextFreeSlot (fun head => decide (current ≤ head)) walkFuel h.freeListHead 0 with
    | none => throw .diverge
    | some (head, prev) =>
      modify fun h => (h.setNextFreeSlot current head).relink prev current
      modify fun h => mergeNext h current head
      modify fun h => mergePrev h prev current

/-- Forget the heap after a panic. -/
def outcome (x : Panicking Unit) (h : HeapState) : Outcome HeapState :=
  match x h with
  | .ok _ h => .ok h
  | .error stop _ => .error stop

end Panicking

variable {h : HeapState} {p : ℕ}

theorem outcome_kfree (h : HeapState) (p : ℕ) :
    Panicking.outcome (Panicking.kfree p) h = kfree h p := by
  unfold Panicking.outcome Panicking.kfree kfree
  simp only [bind, EStateM.bind, get, getThe, MonadStateOf.get, EStateM.get]
  by_cases hflag : h.sizeAndFlags (sub32 p headerSize) % 2 = 1
  · simp only [hflag, if_true]
    rfl
  · simp only [hflag, if_false, EStateM.bind, modify, modifyGet, MonadStateOf.modifyGet,
      EStateM.modifyGet, EStateM.get]
    -- both sides walk the same list; where the walk ends plays no role
    generalize scan 0 _ _ walkFuel _ 0 = found
    cases found with
    | none => rfl
    | some r => rfl

/-- A set flag is found before anything is written. -/
theorem kfree_flagged (hf : h.sizeAndFlags (sub32 p headerSize) % 2 = 1) :
    Panicking.kfree p h = .error (.panic "USE AFTER FREE!") h := by
  unfold Panicking.kfree
  simp only [bind, EStateM.bind, get, getThe, MonadStateOf.get, EStateM.get, hf, if_true]
  rfl

end Panicking

section Flags

variable {h h' : HeapState} {start a b n p x : ℕ} {us vs bs : List Block}

/-- The word at `x` has the bit that `kfree` looks at. -/
def Flagged (h : HeapState) (x : ℕ) : Prop := h.sizeAndFlags x % 2 = 1

theorem flagged_setNextFreeSlot {v : ℕ} (ha : 16 ∣ a) (hx : 16 ∣ x) :
    Flagged (h.setNextFreeSlot a v) x ↔ Flagged h x := by
  rw [Flagged, sizeAndFlags_setNextFreeSlot ha hx, Flagged]

theorem flagged_relink (ha : 16 ∣ a) (hx : 16 ∣ x) : Flagged (h.relink a b) x ↔ Flagged h x := by
  rw [Flagged, sizeAndFlags_relink ha hx, Flagged]

/-- A merge adds an even number to the header it keeps and leaves the other one behind. -/
theorem flagged_absorb (ha : 16 ∣ a) (hb : 16 ∣ b) (hx : 16 ∣ x) :
    Flagged (absorb h a b) x ↔ Flagged h x := by
  rw [Flagged, (absorb_edited ha hb).size x hx, update_apply, Flagged]
  split_ifs with hxa
  · subst hxa
    unfold add32 clearFlag
    omega
  · rfl

theorem flagged_mergeNext (ha : 16 ∣ a) (hb : 16 ∣ b) (hx : 16 ∣ x) :
    Flagged (mergeNext h a b) x ↔ Flagged h x := by
  unfold mergeNext
  split_ifs
  · exact flagged_absorb ha hb hx
  · rfl

theorem flagged_mergePrev (ha : 16 ∣ a) (hb : 16 ∣ b) (hx : 16 ∣ x) :
    Flagged (mergePrev h b a) x ↔ Flagged h x := by
  unfold mergePrev
  split_ifs
  · exact flagged_absorb hb ha hx
  · rfl

theorem Shape.prev_aligned (hs : Shape h start (us ++ vs)) : 16 ∣ (freeAddrs us).getLastD 0 := by
  rcases (freeAddrs us).eq_nil_or_concat' with hnil | ⟨ys, y, hlast⟩
  · simp [hnil]
  · have hy : y ∈ freeAddrs (us ++ vs) := by simp [hlast]
    simpa [hlast] using hs.slots.aligned y hy

/-- `kfree` sets the flag of its block and clears none. -/
theorem Shape.kfree_flags {s : ℕ} (hs : Shape h start (us ++ ⟨a, s, some n⟩ :: vs))
    (hok : Heap.kfree h (a + headerSize) = .ok h') (hx : 16 ∣ x) :
    Flagged h' x ↔ x = a ∨ Flagged h x := by
  obtain ⟨ha, -, hdvd, hend, -⟩ := hs.cut
  simp only at ha hdvd hend
  have hprev := hs.prev_aligned
  have hnext : 16 ∣ (freeAddrs vs).headD 0 := by
    cases hf : freeAddrs vs with
    | nil => simp
    | cons y ys => exact (hs.mem_freeAddrs_ge (x := y) (by simp [hf])).2
  -- the writes of `kfree`, last one first: only the flag itself touches a flag
  cases hs.kfree_eq.symm.trans hok
  rw [flagged_mergePrev ha hprev hx, flagged_mergeNext ha hnext hx, flagged_relink hprev hx,
    flagged_setNextFreeSlot ha hx, Flagged, sizeAndFlags_setSizeAndFlags ha hx (by omega), Flagged]
  split_ifs with hxa
  · simp only [hxa, true_or, iff_true]
    omega
  · simp [hxa]

/-- `kmalloc` clears the flag of the block it hands out and of no other word. -/
theorem Rep.kmalloc_flags (hr : Rep h start bs) (hlt : n + 23 + 4095 < 2 ^ 32)
    (hok : Heap.kmalloc h n = .ok (p, h')) (hx : 16 ∣ x) (hne : x + headerSize ≠ p) (hf : Flagged h x) :
    Flagged h' x := by
  have hs := hr.toShape
  by_cases hn : n = 0
  · rw [Heap.kmalloc, if_pos hn] at hok
    cases hok
    exact hf
  have hdr := dvd_realSize n
  rcases hr.kmalloc_cases (n := n) (by omega) (by omega) with
    ⟨m, hm⟩ | ⟨us, a, s, vs, rfl, hfit, -, hok'⟩ | ⟨paging, -, -, -, hend, hok'⟩
  · cases hm.symm.trans hok
  · cases hok'.symm.trans hok
    obtain ⟨ha, -, hdvd, hlast, -⟩ := hs.cut
    simp only at ha hdvd hlast
    have hxa : x ≠ a := fun he => hne (he ▸ rfl)
    have hprev := hs.prev_aligned
    by_cases hroom : realSize n + 16 ≤ s
    · obtain ⟨h₁, he, ed⟩ := takeBlock_split ((freeAddrs us).getLastD 0) ha hdr hdvd
        hs.header_free hroom hlast
      rw [he, flagged_relink hprev hx, Flagged, ed.size x hx, update_of_ne hxa, update_apply]
      split_ifs
      · omega
      · exact hf
    · obtain rfl : s = realSize n := by omega
      obtain ⟨h₁, he, ed⟩ := takeBlock_whole ((freeAddrs us).getLastD 0) ha hdvd
        hs.header_free (by omega)
      rw [he, flagged_relink hprev hx, Flagged, ed.size x hx, update_of_ne hxa]
      exact hf
  -- new pages: the block is cut from the watermark, where no header was yet
  · cases hok'.symm.trans hok
    have hxa : x ≠ h.heapWatermark := fun he => hne (he ▸ rfl)
    have ha : 16 ∣ h.heapWatermark := by
      have := hs.watermark_aligned
      omega
    have hpage := (rounded_and_paged (n := n) (by omega)).2
    have hgrown : Flagged (grown h paging (pagesNeeded (realSize n))) x := hf
    by_cases hroom : realSize n + 16 ≤ pagesNeeded (realSize n) * 4096
    · obtain ⟨h₁, he, ed⟩ := carveBlock_split (h := grown h paging (pagesNeeded (realSize n)))
        ((freeAddrs bs).getLastD 0) ha hdr hs.last_eq_zero hroom (by omega)
      rw [he, flagged_relink hs.slots.last_aligned hx, Flagged, ed.size x hx, update_of_ne hxa,
        update_apply]
      split_ifs
      · omega
      · exact hgrown
    · have ed := carveBlock_whole (h := grown h paging (pagesNeeded (realSize n)))
        ((freeAddrs bs).getLastD 0) ha hdr (by omega) (by omega)
      rw [Flagged, ed.size x hx, update_of_ne hxa]
      exact hgrown

end Flags

section Stale

/-- Address `p` is not live, and no byte of its header word lies in a live payload. -/
structure Session.Quiet (s : Session) (p : ℕ) : Prop where
  dead : s.live p = none
  clear : ∀ q n, s.live q = some n → ∀ i, p - headerSize ≤ i → i < p - headerSize + 4 →
    ¬ (q ≤ i ∧ i < q + n)

/-- A step after which `p` is still not in use. -/
def Session.QuietStep (p : ℕ) (s s' : Session) : Prop := s.Step s' ∧ s'.Quiet p

variable {start p : ℕ} {bs : List Block} {s s' : Session}

/-- The header of a freed address keeps its flag while nobody gets hold of it. -/
theorem Session.Inv.flagged_step (h : s.Inv start bs) (hp : 16 ∣ p - headerSize)
    (h8 : headerSize ≤ p) (hf : Flagged s.heap (p - headerSize)) (hstep : s.QuietStep p s') :
    Flagged s'.heap (p - headerSize) := by
  obtain ⟨hstep, hquiet⟩ := hstep
  cases hstep with
  | @kmalloc n q h' hlt hok =>
    refine h.rep.kmalloc_flags hlt hok hp ?_ hf
    -- had `kmalloc` handed out `p` itself, `p` would be live again
    rw [Nat.sub_add_cancel h8]
    rintro rfl
    have hdead := hquiet.dead
    by_cases hn : n = 0
    · subst hn
      cases hok
      exact absurd h8 (by decide)
    · simp [hn] at hdead
  | @kfree n q h' hlive hok =>
    obtain ⟨⟨a, size, tag⟩, hb, rfl, rfl⟩ := (h.live q n).mp hlive
    obtain ⟨us, vs, rfl⟩ := List.append_of_mem hb
    exact (h.rep.toShape.kfree_flags hok hp).mpr (.inr hf)
  | @store n q i v hlive hi hi' =>
    -- a client stores into its own payload, and the header word is in none
    have hmiss : ∀ j, p - headerSize ≤ j → j < p - headerSize + 4 → j ≠ i := by
      intro j hj hj' hji
      exact hquiet.clear q n hlive j hj hj' (hji ▸ ⟨hi, hi'⟩)
    have hword : read32 (update s.heap.mem i v) (p - headerSize) =
        read32 s.heap.mem (p - headerSize) :=
      read32_congr fun j hj hj' => update_of_ne (hmiss j hj hj') _ _
    exact (congrArg (· % 2 = 1) hword).mpr hf

theorem Session.Inv.flagged_run (h : s.Inv start bs) (hp : 16 ∣ p - headerSize)
    (h8 : headerSize ≤ p) (hf : Flagged s.heap (p - headerSize))
    (hrun : ReflTransGen (Session.QuietStep p) s s') :
    (∃ bs', s'.Inv start bs') ∧ Flagged s'.heap (p - headerSize) := by
  induction hrun with
  | refl => exact ⟨⟨bs, h⟩, hf⟩
  | tail _ hstep ih =>
    obtain ⟨⟨bs', h'⟩, hf'⟩ := ih
    exact ⟨h'.step hstep.1, h'.flagged_step hp h8 hf' hstep⟩

/-- Right after `kfree` the header has its flag. -/
theorem Session.Inv.kfree_flagged {n : ℕ} {h₂ : HeapState} (h : s.Inv start bs)
    (hlive : s.live p = some n) (hok : kfree s.heap p = .ok h₂) :
    16 ∣ p - headerSize ∧ headerSize ≤ p ∧ p < 2 ^ 32 ∧ Flagged h₂ (p - headerSize) := by
  obtain ⟨⟨a, size, tag⟩, hb, rfl, rfl⟩ := (h.live p n).mp hlive
  obtain ⟨us, vs, rfl⟩ := List.append_of_mem hb
  have hs := h.rep.toShape
  obtain ⟨ha, hpos, hdvd, hend, -⟩ := hs.cut
  simp only at ha hpos hdvd hend
  have hsub : a + headerSize - headerSize = a := Nat.add_sub_cancel _ _
  rw [hsub]
  refine ⟨ha, Nat.le_add_left _ _, ?_, ?_⟩
  · change a + 8 < 2 ^ 32
    omega
  · exact (hs.kfree_flags hok ha).mpr (.inl rfl)

variable (l : Layout) (mem : Mem) (mbd : MultibootInfo) (es : List MmapEntry)

/-- A second `kfree` of an address is caught, however the block was merged since,
unless the address was handed out again or its header was part of a payload; and no
`kfree` of a live address panics. -/
theorem double_free_caught (hm : MemoryMap mem mbd es) (ho : ∀ e ∈ es, e.Ordinary)
    (f : BootFrames l) (ram : ℕ → ℕ → ℕ) (bytes : Mem) (hk : l.kernelEnd + 0x400FFF < 2 ^ 32) :
    ∃ pmm, pmmInit l mem mbd = .ok pmm ∧
      ∀ k, ReflTransGen Tracked.Step (f.start ram pmm) k →
        ∀ s₁, ReflTransGen Session.Step (boot bytes k.state l.kernelEnd) s₁ →
          ∀ p n, s₁.live p = some n →
            ∃ h₂, kfree s₁.heap p = .ok h₂ ∧
              ∀ s, ReflTransGen (Session.QuietStep p) ⟨h₂, update s₁.live p none⟩ s →
                Panicking.outcome (Panicking.kfree p) s.heap = kfree s.heap p ∧
                Panicking.kfree p s.heap = .error (.panic "USE AFTER FREE!") s.heap := by
  obtain ⟨pmm, hpmm, hgood⟩ := f.start_good hm ho ram
  refine ⟨pmm, hpmm, ?_⟩
  intro k hrun s₁ hs₁ p n hlive
  obtain ⟨bs, hinv⟩ := (boot_inv bytes (f.growable hgood hrun) hk).run hs₁
  obtain ⟨h₂, -, hok, -⟩ := hinv.rep.kfree ((hinv.live p n).mp hlive)
  refine ⟨h₂, hok, ?_⟩
  intro s hs
  obtain ⟨bs₂, hinv₂⟩ := hinv.step (.kfree hlive hok)
  obtain ⟨hal, h8, hlt, hf⟩ := hinv.kfree_flagged hlive hok
  obtain ⟨-, hf'⟩ := hinv₂.flagged_run hal h8 hf hs
  refine ⟨outcome_kfree _ _, kfree_flagged ?_⟩
  rw [sub32_of_le h8 hlt]
  exact hf'

/-- `kmalloc(1)`, `kfree` and `kfree` again on the sample machine. -/
theorem double_free_caught_sample :
    ∃ pmm s₁ a h' h₂, pmmInit sampleLayout sampleMap ⟨0x1000, 24⟩ = .ok pmm ∧
      kmalloc (boot (fun _ => 0xAA) s₁ sampleLayout.kernelEnd).heap 1 = .ok (a, h') ∧
      kfree h' a = .ok h₂ ∧ kfree h₂ a = .error (.panic "USE AFTER FREE!") := by
  obtain ⟨pmm, hpmm, h⟩ := double_free_caught sampleLayout sampleMap ⟨0x1000, 24⟩ [sampleEntry]
    sampleMap_wellFormed sampleEntry_ordinary sampleFrames (fun _ _ => 0) (fun _ => 0xAA) (by decide)
  obtain ⟨pmm', s₁, -, hpmm', -, ha, he, -, -, ⟨a, h'⟩, hok⟩ := sample_run
  cases Except.ok.inj (hpmm.symm.trans hpmm')
  have hstep : (boot (fun _ => 0xAA) s₁ sampleLayout.kernelEnd).Step ⟨h', update _ a (some 1)⟩ :=
    .kmalloc (by decide) hok
  obtain ⟨h₂, hfree, hcaught⟩ := h _ (.single ⟨_, ha, he⟩) _ (.single hstep) a 1 (update_self ..)
  obtain ⟨hsame, hpanic⟩ := hcaught _ .refl
  refine ⟨pmm, s₁, a, h', h₂, hpmm, hok, hfree, ?_⟩
  rw [← hsame, Panicking.outcome, hpanic]

end Stale

end KallarOS.Heap
