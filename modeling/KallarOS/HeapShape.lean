import KallarOS.HeapEdits

namespace KallarOS.Heap
open ByteMemory Chains Tilings Function

/-- A live block has the size of its request, rounded. -/
def Fits (b : Block) : Prop :=
  ∀ n, b.tag = some n → 0 < n ∧ n + 23 + 4095 < 2 ^ 32 ∧ b.size = (n + 8 + 15) / 16 * 16

/-- The heap's bytes are the blocks `bs`, and the free list links the free ones. -/
structure Shape (h : HeapState) (start : ℕ) (bs : List Block) : Prop where
  start_pos : 0 < start
  start_aligned : 4096 ∣ start
  watermark_lt : h.heapWatermark < 2 ^ 32
  watermark_aligned : 4096 ∣ h.heapWatermark
  tiles : Tiles 16 start bs h.heapWatermark
  header : ∀ b ∈ bs, h.sizeAndFlags b.addr = headerWord b
  list : Linked 0 h.nextFreeSlot h.freeListHead (freeAddrs bs)
  fits : ∀ b ∈ bs, Fits b

namespace Shape

variable {h h' : HeapState} {start a s n : ℕ} {bs us vs ws : List Block} {b : Block}

theorem aligned (hs : Shape h start bs) (hb : b ∈ bs) : 16 ∣ b.addr :=
  hs.tiles.aligned (by have := hs.start_aligned; omega) hb

theorem slots (hs : Shape h start bs) : Slots (freeAddrs bs) :=
  slots_of_tiles hs.tiles hs.start_pos (by have := hs.start_aligned; omega) hs.watermark_lt

theorem length_lt (hs : Shape h start bs) : (freeAddrs bs).length < 2 ^ 32 := by
  have h1 := freeAddrs_length_le bs
  have h2 := hs.tiles.length_le
  have h3 := hs.watermark_lt
  omega

/-- Where a block stands among the others. -/
theorem cut (hs : Shape h start (us ++ b :: vs)) :
    16 ∣ b.addr ∧ 0 < b.size ∧ 16 ∣ b.size ∧ b.addr + b.size < 2 ^ 32 ∧ start ≤ b.addr ∧
      Tiles 16 start us b.addr ∧ Tiles 16 (b.addr + b.size) vs h.heapWatermark := by
  obtain ⟨_, hus, rfl, hpos, hdvd, hvs⟩ := tiles_append.mp hs.tiles
  have := hs.watermark_lt
  exact ⟨hs.aligned (by simp), hpos, hdvd, by have := hvs.le; omega, hus.le, hus, hvs⟩

theorem us_lt (hs : Shape h start (us ++ b :: vs)) {x : Block} (hx : x ∈ us) :
    x.addr < b.addr ∧ 16 ∣ x.addr := by
  obtain ⟨-, -, -, -, -, hus, -⟩ := hs.cut
  have := hus.mem_bounds hx
  exact ⟨by omega, hs.aligned (by simp [hx])⟩

theorem vs_ge (hs : Shape h start (us ++ b :: vs)) {x : Block} (hx : x ∈ vs) :
    b.addr + b.size ≤ x.addr ∧ 16 ∣ x.addr := by
  obtain ⟨-, -, -, -, -, -, hvs⟩ := hs.cut
  exact ⟨(hvs.mem_bounds hx).1, hs.aligned (by simp [hx])⟩

/-- The path into and out of the free list at a cut. -/
theorem paths (hs : Shape h start (us ++ ws)) :
    ∃ c, Path h.nextFreeSlot h.freeListHead (freeAddrs us) c ∧
      Path h.nextFreeSlot c (freeAddrs ws) 0 := by
  have hl := hs.list.path
  rwa [freeAddrs_append, path_append] at hl

theorem mem_freeAddrs_lt (hs : Shape h start (us ++ b :: vs)) {x : ℕ} (hx : x ∈ freeAddrs us) :
    x < b.addr ∧ 16 ∣ x := by
  obtain ⟨y, hy, -, rfl⟩ := mem_freeAddrs.mp hx
  exact hs.us_lt hy

theorem mem_freeAddrs_ge (hs : Shape h start (us ++ b :: vs)) {x : ℕ} (hx : x ∈ freeAddrs vs) :
    b.addr + b.size ≤ x ∧ 16 ∣ x := by
  obtain ⟨y, hy, -, rfl⟩ := mem_freeAddrs.mp hx
  exact hs.vs_ge hy

/-- The heap is rebuilt behind `us`: new headers, and one link that leads to them. -/
theorem relink {c : ℕ} (hs : Shape h start (us ++ ws)) {ws' : List Block}
    (hlt : h'.heapWatermark < 2 ^ 32) (hal : 4096 ∣ h'.heapWatermark)
    (ht : Tiles 16 start (us ++ ws') h'.heapWatermark)
    (hsize : ∀ x ∈ us, h'.sizeAndFlags x.addr = h.sizeAndFlags x.addr)
    (hsize' : ∀ x ∈ ws', h'.sizeAndFlags x.addr = headerWord x)
    (hhead : h'.freeListHead = h.freeListHead)
    (hnext : ∀ x ∈ freeAddrs us, h'.nextFreeSlot x = h.nextFreeSlot x)
    (hpath : Path h'.nextFreeSlot c (freeAddrs ws') 0) (hfits : ∀ x ∈ ws', Fits x) :
    Shape (h'.relink ((freeAddrs us).getLastD 0) c) start (us ++ ws') := by
  have hstart : 16 ∣ start := by have := hs.start_aligned; omega
  have hslots := slots_of_tiles ht hs.start_pos hstart hlt
  rw [freeAddrs_append] at hslots
  have hus : Slots (freeAddrs us) := by
    have := hs.slots
    rw [freeAddrs_append] at this
    exact ⟨(List.nodup_append.mp this.nodup).1, fun x hx => this.aligned x (by simp [hx]),
      fun hx => this.nonnull (by simp [hx]), fun x hx => this.lt x (by simp [hx])⟩
  obtain ⟨d, hp, -⟩ := hs.paths
  have hp' : Path h'.nextFreeSlot h'.freeListHead (freeAddrs us) d := by
    rw [hhead]
    exact (path_congr hnext).mpr hp
  refine ⟨hs.start_pos, hs.start_aligned, by simpa using hlt, by simpa using hal, by simpa using ht,
    fun x hx => ?_, ?_, fun x hx => ?_⟩
  · rw [sizeAndFlags_relink hus.last_aligned (ht.aligned hstart hx)]
    rcases List.mem_append.mp hx with hx | hx
    · rw [hsize x hx, hs.header x (by simp [hx])]
    · exact hsize' x hx
  · rw [freeAddrs_append]
    exact linked_relink hslots hp' hpath
  · rcases List.mem_append.mp hx with hx | hx
    · exact hs.fits x (by simp [hx])
    · exact hfits x hx

/-- The heap is rebuilt behind `us` in place: the way into the free list stays. -/
theorem edit (hs : Shape h start (us ++ ws)) {ws' : List Block}
    (hlt : h'.heapWatermark < 2 ^ 32) (hal : 4096 ∣ h'.heapWatermark)
    (ht : Tiles 16 start (us ++ ws') h'.heapWatermark)
    (hsize : ∀ x ∈ us, h'.sizeAndFlags x.addr = h.sizeAndFlags x.addr)
    (hsize' : ∀ x ∈ ws', h'.sizeAndFlags x.addr = headerWord x)
    (hhead : h'.freeListHead = h.freeListHead)
    (hnext : ∀ x ∈ freeAddrs us, h'.nextFreeSlot x = h.nextFreeSlot x)
    (hpath : ∀ c, Path h.nextFreeSlot c (freeAddrs ws) 0 → Path h'.nextFreeSlot c (freeAddrs ws') 0)
    (hfits : ∀ x ∈ ws', Fits x) : Shape h' start (us ++ ws') := by
  have hslots := slots_of_tiles ht hs.start_pos (by have := hs.start_aligned; omega) hlt
  obtain ⟨c, hp, hq⟩ := hs.paths
  refine ⟨hs.start_pos, hs.start_aligned, hlt, hal, ht, fun x hx => ?_, ⟨?_, hslots.nonnull⟩,
    fun x hx => ?_⟩
  · rcases List.mem_append.mp hx with hx | hx
    · rw [hsize x hx, hs.header x (by simp [hx])]
    · exact hsize' x hx
  · rw [freeAddrs_append, path_append, hhead]
    exact ⟨c, (path_congr hnext).mpr hp, hpath c hq⟩
  · rcases List.mem_append.mp hx with hx | hx
    · exact hs.fits x (by simp [hx])
    · exact hfits x hx

/-- The blocks `mid` are replaced by blocks over the same bytes, and the free list
is led through the new ones. -/
theorem replace {lo hi c d : ℕ} {size next : ℕ → ℕ} (mid mid' : List Block)
    (hs : Shape h start (us ++ (mid ++ vs))) (hus : Tiles 16 start us lo)
    (hvs : Tiles 16 hi vs h.heapWatermark) (ed : Edited h h' size next)
    (hout : ∀ x, x < lo ∨ hi ≤ x → size x = h.sizeAndFlags x ∧ next x = h.nextFreeSlot x)
    (ht : Tiles 16 lo mid' hi) (hheader : ∀ x ∈ mid', size x.addr = headerWord x)
    (hfits : ∀ x ∈ mid', Fits x) (hd : Path h.nextFreeSlot d (freeAddrs vs) 0)
    (hpath : Path next c (freeAddrs mid') d) :
    Shape (h'.relink ((freeAddrs us).getLastD 0) c) start (us ++ (mid' ++ vs)) := by
  have hstart : 16 ∣ start := by have := hs.start_aligned; omega
  have hlo := hus.stop_aligned hstart
  have hold : ∀ x ∈ us ++ vs, x.addr < lo ∨ hi ≤ x.addr := by
    intro x hx
    rcases List.mem_append.mp hx with hx | hx
    · have := hus.mem_bounds hx
      omega
    · exact .inr (hvs.mem_bounds hx).1
  have hfree : ∀ x ∈ freeAddrs us ++ freeAddrs vs, 16 ∣ x ∧ (x < lo ∨ hi ≤ x) := by
    intro x hx
    rw [← freeAddrs_append] at hx
    obtain ⟨y, hy, -, rfl⟩ := mem_freeAddrs.mp hx
    refine ⟨hs.aligned ?_, hold y hy⟩
    rcases List.mem_append.mp hy with hy | hy <;> simp [hy]
  refine hs.relink (ed.watermark ▸ hs.watermark_lt) (ed.watermark ▸ hs.watermark_aligned) ?_
    (fun x hx => ?_) (fun x hx => ?_) ed.head (fun x hx => ?_) ?_ fun x hx => ?_
  · rw [ed.watermark]
    exact tiles_append.mpr ⟨lo, hus, tiles_append.mpr ⟨hi, ht, hvs⟩⟩
  · rw [ed.size _ (hs.aligned (by simp [hx])), (hout _ (hold x (by simp [hx]))).1]
  · rcases List.mem_append.mp hx with hx | hx
    · rw [ed.size _ (ht.aligned hlo hx), hheader x hx]
    · rw [ed.size _ (hs.aligned (by simp [hx])), (hout _ (hold x (by simp [hx]))).1]
      exact hs.header x (by simp [hx])
  · obtain ⟨hal, ho⟩ := hfree x (by simp [hx])
    rw [ed.next _ hal, (hout _ ho).2]
  · rw [freeAddrs_append, path_append]
    refine ⟨d, (path_congr fun x hx => ?_).mpr hpath, (path_congr fun x hx => ?_).mpr hd⟩
    · obtain ⟨y, hy, -, rfl⟩ := mem_freeAddrs.mp hx
      exact ed.next _ (ht.aligned hlo hy)
    · obtain ⟨hal, ho⟩ := hfree x (by simp [hx])
      rw [ed.next _ hal, (hout _ ho).2]
  · rcases List.mem_append.mp hx with hx | hx
    · exact hfits x hx
    · exact hs.fits x (by simp [hx])

end Shape

end KallarOS.Heap
