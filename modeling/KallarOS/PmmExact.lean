import KallarOS.PmmRuns
import KallarOS.PmmWatch

namespace KallarOS.Pmm
open ByteMemory

variable {l : Layout} {mem : Mem} {mbd : MultibootInfo} {es : List MmapEntry} {e : MmapEntry}

section Exactness

/-- The highest end of a usable entry, where none counts past 0xFFFFF000. -/
def highestEnd (es : List MmapEntry) : ℕ :=
  ((es.filter fun e => e.Usable).map fun e => min (e.addr + e.len) 0xFFFFF000).foldr max 0

/-- `[4096 f, 4096 (f + 1))` lies inside the part of a usable entry below 0xFFFFF000. -/
def MmapEntry.Offers (e : MmapEntry) (f : ℕ) : Prop :=
  e.Usable ∧ e.addr ≤ 4096 * f ∧ 4096 * (f + 1) ≤ min (e.addr + e.len) 0xFFFFF000

theorem MmapEntry.Ordinary.top_eq (h : e.Ordinary) (hu : e.Usable) :
    e.top = min (e.addr + e.len) 0xFFFFF000 := by
  have h1 := h.noWrap hu
  have h2 := h.notLastPage hu
  unfold MmapEntry.top MmapEntry.stop
  split_ifs <;> omega

theorem highestAddr_eq (h : ∀ e ∈ es, e.Ordinary) : highestAddr es = highestEnd es := by
  induction es with
  | nil => rfl
  | cons e es ih =>
    have hrest := ih fun x hx => h x (List.mem_cons_of_mem _ hx)
    unfold highestAddr highestEnd at hrest ⊢
    rw [List.foldr_cons, hrest]
    by_cases hu : e.Usable
    · rw [if_pos hu, (h e List.mem_cons_self).top_eq hu, List.filter_cons_of_pos (by simpa using hu),
        List.map_cons, List.foldr_cons]
    · rw [if_neg hu, List.filter_cons_of_neg (by simpa using hu), Nat.zero_max]

theorem not_meets_iff {start stop f : ℕ} : ¬ Meets start stop f ↔ Clear (4096 * f) start stop := by
  unfold Meets Clear
  omega

theorem not_protects_iff {m f : ℕ} : ¬ l.Protects m f ↔
    Clear (4096 * f) (l.kernelStart - 0xC0000000) (l.kernelEnd - 0xC0000000) ∧
      Clear (4096 * f) (l.bitmapAddr - 0xC0000000)
        (l.bitmapAddr + bitmapSizeBytes m - 0xC0000000) ∧
      Clear (4096 * f) 0 0x100000 := by
  rw [Layout.Protects, not_or, not_or, not_meets_iff, not_meets_iff, not_meets_iff]

theorem Initialized.bit_eq_false_iff {p : PmmState} (h : Initialized l es p) {f : ℕ}
    (hf : f < p.maxBlocks) :
    p.bit f = false ↔ (∃ e ∈ es, e.Covers f) ∧ ¬ l.Protects p.maxBlocks f := by
  rw [h.bit, Bool.or_eq_false_iff, Bool.not_eq_false', decide_eq_true_iff, decide_eq_false_iff_not,
    and_iff_left hf]

theorem Watched.eq_ok_of_map {x : Outcome Watched} {p : PmmState} (h : x.map Watched.pmm = .ok p) :
    ∃ w, x = .ok w ∧ w.pmm = p := by
  cases x with
  | error e => exact absurd h nofun
  | ok w => exact ⟨w, rfl, Except.ok.inj h⟩

/-- What `pmm_init` computes on an ordinary memory map: the number of frames, which
of them are free, how many are not, and that it stays inside the bitmap. -/
theorem pmm_init_exact (l : Layout) (mem : Mem) (mbd : MultibootInfo) (es : List MmapEntry)
    (hm : MemoryMap mem mbd es) (ho : ∀ e ∈ es, e.Ordinary) :
    ∃ w, Watched.pmmInit l mem mbd = .ok w ∧ pmmInit l mem mbd = .ok w.pmm ∧
      w.pmm.maxBlocks = (highestEnd es + 0xFFF) / 4096 ∧
      (∀ f < w.pmm.maxBlocks, w.pmm.bit f = false ↔ (∃ e ∈ es, e.Offers f) ∧
        Clear (4096 * f) (l.kernelStart - 0xC0000000) (l.kernelEnd - 0xC0000000) ∧
        Clear (4096 * f) (l.bitmapAddr - 0xC0000000)
          (l.bitmapAddr + bitmapSizeBytes w.pmm.maxBlocks - 0xC0000000) ∧
        Clear (4096 * f) 0 0x100000) ∧
      w.pmm.usedBlocks = (Finset.filter (fun f => w.pmm.bit f ≠ false)
        (Finset.range w.pmm.maxBlocks)).card ∧
      ∀ b ∈ w.touched, b / 32 < (w.pmm.maxBlocks + 31) / 32 := by
  obtain ⟨p, hp, hi⟩ := pmmInit_ok l hm ho
  obtain ⟨herase, hrec⟩ := Watched.pmmInit_records l hm
  obtain ⟨w, hw, rfl⟩ := Watched.eq_ok_of_map (herase.trans hp)
  have hmax := hi.maxBlocks
  refine ⟨w, hw, hp, ?_, ?_, ?_, ?_⟩
  · rw [hmax, maxBlocksOf_eq ho, highestAddr_eq ho]
  · intro f hf
    have hcov : (∃ e ∈ es, e.Covers f) ↔ ∃ e ∈ es, e.Offers f :=
      exists_congr fun e => and_congr_right fun he => covers_iff (ho e he) f
    exact (hi.bit_eq_false_iff hf).trans (and_congr hcov not_protects_iff)
  · rw [hi.counted.count, PmmState.usedFrames]
    refine congrArg Finset.card (Finset.filter_congr fun f _ => ?_)
    rw [ne_eq, Bool.not_eq_false]
  · intro b hb
    have hlt : b < w.pmm.maxBlocks := by
      rw [hmax]
      rcases ((hrec w hw).2 b).mp hb with ⟨e, he, hc⟩ | ⟨-, hlt⟩
      · exact hc.2.2.trans_le (endFrame_le ho he hc.1)
      · exact hlt
    omega

theorem pmm_init_exact_sample : ∃ w, Watched.pmmInit sampleLayout sampleMap ⟨0x1000, 24⟩ = .ok w ∧
    w.pmm.maxBlocks = 1024 := by
  obtain ⟨w, hw, -, hmax, -⟩ := pmm_init_exact sampleLayout sampleMap ⟨0x1000, 24⟩ [sampleEntry]
    sampleMap_wellFormed sampleEntry_ordinary
  refine ⟨w, hw, hmax.trans ?_⟩
  decide

end Exactness

section LastPage

/-- Every frame left free lies inside an available entry, and no bit past the last
frame was read, set or cleared. -/
def WhitelistSafe (l : Layout) (mem : Mem) (mbd : MultibootInfo) (es : List MmapEntry) : Prop :=
  ∃ w, Watched.pmmInit l mem mbd = .ok w ∧
    (∀ f, w.pmm.bit f = false → ∃ e ∈ es, e.Holds f) ∧ ∀ b ∈ w.touched, b < w.pmm.maxBlocks

namespace MmapEntry

/-- The end, as the 64-bit sum has it, is inside the last page under 4 GiB. -/
def EndsInLastPage (e : MmapEntry) : Prop := 0xFFFFF000 < e.stop ∧ e.stop ≤ 0xFFFFFFFF

/-- A whole page lies between the start and the end of the entry, where a start inside
the last page under 4 GiB counts as 0: rounding it up wraps. -/
def Reaches (e : MmapEntry) (f : ℕ) : Prop :=
  (if 0xFFFFF000 < e.addr then 0 else e.addr) ≤ 4096 * f ∧ 4096 * (f + 1) ≤ min e.stop 0xFFFFF000

theorem covers_iff_reaches {f : ℕ} : e.Covers f ↔ e.Usable ∧ e.Reaches f := by
  unfold Covers
  refine and_congr_right fun hu => ?_
  have haddr := hu.2
  unfold startFrame endFrame Reaches pageAlignUp pageAlignDown
  split_ifs <;> omega

end MmapEntry

/-- When the wrap-arounds at the last page under 4 GiB do no harm: if an entry ends
inside that page then no entry has a whole page, and if one starts inside it then all
frames below its end are protected or inside some entry. -/
structure LastPageHarmless (l : Layout) (es : List MmapEntry) : Prop where
  ends : ∀ e ∈ es, e.Usable → e.EndsInLastPage → ∀ e' ∈ es, e'.Usable → ∀ f, ¬ e'.Reaches f
  starts : ∀ e ∈ es, e.Usable → 0xFFFFF000 < e.addr →
    ∀ f, 4096 * (f + 1) ≤ min e.stop 0xFFFFF000 →
      l.Protects (maxBlocksOf es) f ∨ ∃ e' ∈ es, e'.Holds f

theorem Walks.len_lt {a z : ℕ} (h : Walks mem a es z) (he : e ∈ es) : e.len < 2 ^ 64 := by
  induction es generalizing a with
  | nil => simp at he
  | cons x es ih =>
    rcases List.mem_cons.mp he with rfl | he
    · rw [← h.1]
      exact read64_lt mem (a + 12)
    · exact ih h.2.2 he

theorem MmapEntry.top_le (e : MmapEntry) : e.top ≤ 0xFFFFFFFF := by
  unfold MmapEntry.top
  split_ifs <;> omega

/-- An end inside the last page makes `max_blocks` wrap to 0. -/
theorem maxBlocksOf_eq_zero (he : e ∈ es) (hu : e.Usable) (hend : e.EndsInLastPage) :
    maxBlocksOf es = 0 := by
  have h1 : e.top ≤ highestAddr es := top_le_highestAddr he hu
  have h2 : highestAddr es ≤ 0xFFFFFFFF := highestAddr_le_of fun e _ _ => e.top_le
  unfold MmapEntry.EndsInLastPage at hend
  unfold MmapEntry.top at h1
  rw [if_neg (by omega)] at h1
  unfold maxBlocksOf pageAlignUp pageAlignDown
  omega

theorem covers_lt_maxBlocksOf (h : LastPageHarmless l es) (he : e ∈ es) {f : ℕ} (hc : e.Covers f) :
    f < maxBlocksOf es := by
  obtain ⟨hu, hr⟩ := MmapEntry.covers_iff_reaches.mp hc
  by_cases hlast : ∃ e' ∈ es, e'.Usable ∧ e'.EndsInLastPage
  · obtain ⟨e', he', hu', hend⟩ := hlast
    exact absurd hr (h.ends e' he' hu' hend e he hu f)
  -- no end in the last page: rounding the highest address up does not wrap
  · push Not at hlast
    have hhigh : highestAddr es ≤ 0xFFFFF000 := highestAddr_le_of fun e' he' hu' => by
      have hno := hlast e' he' hu'
      unfold MmapEntry.EndsInLastPage at hno
      unfold MmapEntry.top
      split_ifs <;> omega
    have htop := top_le_highestAddr he hu
    have hspan := hr.2
    unfold MmapEntry.top at htop
    unfold maxBlocksOf pageAlignUp pageAlignDown
    split_ifs at htop <;> omega

theorem holds_of_covers (hlen : e.len < 2 ^ 64) (hstart : e.addr ≤ 0xFFFFF000) {f : ℕ}
    (hc : e.Covers f) : e.Holds f := by
  obtain ⟨hu, hr⟩ := MmapEntry.covers_iff_reaches.mp hc
  unfold MmapEntry.Reaches MmapEntry.stop at hr
  rw [if_neg (by omega)] at hr
  exact ⟨hu.1, hr.1, by omega⟩

theorem WhitelistSafe.harmless (hm : MemoryMap mem mbd es) (h : WhitelistSafe l mem mbd es) :
    LastPageHarmless l es := by
  obtain ⟨w, hw, hfree, htouched⟩ := h
  obtain ⟨herase, hrec⟩ := Watched.pmmInit_records l hm
  obtain ⟨hmax, htouch⟩ := hrec w hw
  -- every frame an entry covers has its bit touched
  have hcov : ∀ e ∈ es, ∀ f, e.Covers f → f < maxBlocksOf es := by
    intro e he f hc
    rw [← hmax]
    exact htouched f ((htouch f).mpr (.inl ⟨e, he, hc⟩))
  obtain ⟨p, hp, hi⟩ := pmmInit_of_covers l hm hcov
  have hpw : w.pmm = p := by
    rw [← herase, hw] at hp
    exact Except.ok.inj hp
  subst hpw
  refine ⟨?_, ?_⟩
  · intro e he hu hend e' he' hu' f hr
    have := hcov e' he' f (MmapEntry.covers_iff_reaches.mpr ⟨hu', hr⟩)
    rw [maxBlocksOf_eq_zero he hu hend] at this
    omega
  · intro e he hu hstart f hf
    have hc : e.Covers f := by
      rw [MmapEntry.covers_iff_reaches, MmapEntry.Reaches, if_pos hstart]
      exact ⟨hu, Nat.zero_le _, hf⟩
    rw [or_iff_not_imp_left, ← hmax]
    intro hpr
    apply hfree f
    rw [hi.bit_eq_false_iff (hmax ▸ hcov e he f hc)]
    exact ⟨⟨e, he, hc⟩, hpr⟩

theorem LastPageHarmless.whitelistSafe (hm : MemoryMap mem mbd es) (h : LastPageHarmless l es) :
    WhitelistSafe l mem mbd es := by
  obtain ⟨p, hp, hi⟩ := pmmInit_of_covers l hm fun e he f hc => covers_lt_maxBlocksOf h he hc
  obtain ⟨herase, hrec⟩ := Watched.pmmInit_records l hm
  obtain ⟨w, hw, rfl⟩ := Watched.eq_ok_of_map (herase.trans hp)
  obtain ⟨hmax, htouch⟩ := hrec w hw
  refine ⟨w, hw, ?_, ?_⟩
  · intro f hf
    rw [hi.bit, Bool.or_eq_false_iff, Bool.not_eq_false', decide_eq_true_iff,
      decide_eq_false_iff_not] at hf
    obtain ⟨⟨e, he, hc⟩, hpr⟩ := hf
    -- an entry that starts in the last page frees from frame 0 on
    by_cases hstart : 0xFFFFF000 < e.addr
    · have hr := (MmapEntry.covers_iff_reaches.mp hc).2
      rcases h.starts e he hc.1 hstart f hr.2 with hin | hin
      · rw [hmax] at hpr
        exact absurd ⟨hin, covers_lt_maxBlocksOf h he hc⟩ hpr
      · exact hin
    · exact ⟨e, he, holds_of_covers (hm.walks.len_lt he) (by omega) hc⟩
  · intro b hb
    rw [hmax]
    rcases (htouch b).mp hb with ⟨e, he, hc⟩ | ⟨-, hlt⟩
    · exact covers_lt_maxBlocksOf h he hc
    · exact hlt

/-- `pmm_init` frees only what the memory map offers, inside the bitmap, exactly when
no entry runs into the wrap-arounds at the last page under 4 GiB. -/
theorem whitelist_safe_iff (l : Layout) (mem : Mem) (mbd : MultibootInfo) (es : List MmapEntry)
    (hm : MemoryMap mem mbd es) : WhitelistSafe l mem mbd es ↔ LastPageHarmless l es :=
  ⟨fun h => h.harmless hm, fun h => h.whitelistSafe hm⟩

theorem whitelist_safe_iff_sample :
    WhitelistSafe sampleLayout sampleMap ⟨0x1000, 24⟩ [sampleEntry] := by
  rw [whitelist_safe_iff _ _ _ _ sampleMap_wellFormed]
  refine ⟨?_, ?_⟩
  · intro e he _ hend
    obtain rfl : e = sampleEntry := by simpa using he
    exact absurd hend.1 (by decide)
  · intro e he _ hstart
    obtain rfl : e = sampleEntry := by simpa using he
    exact absurd hstart (by decide)

/-- One available entry from 1 MiB to 0xFFFFF800, at 0x1000. -/
def lastPageMap : Mem := fun i =>
  if i = 0xC0001000 then 20 else if i = 0xC0001006 then 0x10 else if i = 0xC000100D then 0xF8
  else if i = 0xC000100E then 0xEF else if i = 0xC000100F then 0xFF
  else if i = 0xC0001014 then 1 else 0

def lastPageEntry : MmapEntry := { size := 20, addr := 0x100000, len := 0xFFEFF800, type := 1 }

theorem lastPageMap_wellFormed : MemoryMap lastPageMap ⟨0x1000, 24⟩ [lastPageEntry] :=
  ⟨by decide, by decide, by decide, rfl⟩

/-- The end of this entry rounds up to 0, so that `max_blocks` is 0 and the first
frame freed is past the bitmap. -/
theorem whitelist_unsafe_at_last_page :
    ¬ ∀ (l : Layout) (mem : Mem) (mbd : MultibootInfo) (es : List MmapEntry),
      MemoryMap mem mbd es → WhitelistSafe l mem mbd es := by
  intro h
  have hsafe := h sampleLayout lastPageMap ⟨0x1000, 24⟩ [lastPageEntry] lastPageMap_wellFormed
  have hmem : lastPageEntry ∈ [lastPageEntry] := List.mem_singleton_self _
  have huse : lastPageEntry.Usable := by decide
  have hends : lastPageEntry.EndsInLastPage := ⟨by decide, by decide⟩
  apply (hsafe.harmless lastPageMap_wellFormed).ends _ hmem huse hends _ hmem huse 256
  exact ⟨by decide, by decide⟩

end LastPage

end KallarOS.Pmm
