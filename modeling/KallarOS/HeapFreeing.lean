import KallarOS.HeapRuns

namespace KallarOS.Heap
open ByteMemory Chains Tilings Paging

/-- The blocks a walk along the free list meets, with their sizes. -/
def freeListFrom (h : HeapState) : ℕ → ℕ → List (ℕ × ℕ)
  | 0, _ => []
  | fuel + 1, block =>
    if block = 0 then []
    else (block, clearFlag (h.sizeAndFlags block)) :: freeListFrom h fuel (h.nextFreeSlot block)

def freeList (h : HeapState) : List (ℕ × ℕ) := freeListFrom h Pmm.walkFuel h.freeListHead

def kfreeAll (h : HeapState) (addresses : List ℕ) : Outcome HeapState :=
  addresses.foldlM (fun h p => kfree h p) h

/-- The block without its request when its address is among `ps`. -/
def released (ps : List ℕ) (b : Block) : Block :=
  if b.addr + headerSize ∈ ps then { b with tag := none } else b

section Lists

variable {h : HeapState} {start : ℕ} {bs : List Block}

theorem freeListFrom_path {xs : List ℕ} {a fuel : ℕ} (hp : Path h.nextFreeSlot a xs 0)
    (h0 : 0 ∉ xs) (hlen : xs.length < fuel) :
    freeListFrom h fuel a = xs.map fun x => (x, clearFlag (h.sizeAndFlags x)) := by
  induction xs generalizing a fuel with
  | nil =>
    obtain ⟨fuel, rfl⟩ : ∃ k, fuel = k + 1 := ⟨fuel - 1, by simp only [List.length_nil] at hlen; omega⟩
    rw [path_nil.mp hp, freeListFrom, if_pos rfl, List.map_nil]
  | cons x xs ih =>
    obtain ⟨fuel, rfl⟩ : ∃ k, fuel = k + 1 := ⟨fuel - 1, by simp only [List.length_cons] at hlen; omega⟩
    obtain ⟨rfl, hq⟩ := path_cons.mp hp
    -- the walk ends at the null pointer only, and no block lies there
    have ha : a ≠ 0 := fun h0' => h0 (by rw [h0']; exact List.mem_cons_self ..)
    rw [freeListFrom, if_neg ha, List.map_cons]
    rw [ih hq (fun hm => h0 (List.mem_cons_of_mem _ hm)) (Nat.lt_of_succ_lt_succ hlen)]

/-- The free list of a heap is its free blocks. -/
theorem Shape.freeList_eq (hs : Shape h start bs) :
    freeList h = (bs.filter isFree).map fun b => (b.addr, b.size) := by
  have hlen : (freeAddrs bs).length < Pmm.walkFuel := hs.length_lt
  rw [freeList, freeListFrom_path hs.list.path hs.list.nonnull hlen, freeAddrs, List.map_map]
  apply List.map_congr_left
  intro b hb
  obtain ⟨hmem, hfree⟩ := List.mem_filter.mp hb
  have hdvd := (hs.tiles.mem_bounds hmem).2.2.2
  simp only [Function.comp, hs.header b hmem, headerWord, if_pos hfree,
    clearFlag_succ (show 2 ∣ b.size by omega)]

theorem released_free (ps : List ℕ) (a s : ℕ) : released ps ⟨a, s, none⟩ = ⟨a, s, none⟩ := by
  unfold released
  split_ifs <;> rfl

theorem released_addr (ps : List ℕ) (b : Block) : (released ps b).addr = b.addr := by
  unfold released
  split_ifs <;> rfl

theorem released_size (ps : List ℕ) (b : Block) : (released ps b).size = b.size := by
  unfold released
  split_ifs <;> rfl

theorem released_cons (p : ℕ) (ps : List ℕ) (b : Block) :
    released ps (released [p] b) = released (p :: ps) b := by
  unfold released
  by_cases h1 : b.addr + headerSize = p
  · subst h1
    simp
  · by_cases h2 : b.addr + headerSize ∈ ps <;> simp [h1, h2]

theorem released_congr {ps qs : List ℕ} (hpq : ∀ p, p ∈ ps ↔ p ∈ qs) : released ps = released qs := by
  funext b
  unfold released
  rw [if_congr (hpq _) rfl rfl]

/-- Releasing one address changes the one block that has it. -/
theorem Shape.map_released {a s : ℕ} {tag : Option ℕ} {us vs : List Block}
    (hs : Shape h start (us ++ ⟨a, s, tag⟩ :: vs)) :
    (us ++ ⟨a, s, tag⟩ :: vs).map (released [a + headerSize]) = us ++ ⟨a, s, none⟩ :: vs := by
  have hother : ∀ b ∈ us ++ vs, released [a + headerSize] b = b := by
    intro b hb
    have hne : b.addr ≠ a := by
      rcases List.mem_append.mp hb with hb | hb
      · exact (hs.us_lt hb).1.ne
      · have := (hs.vs_ge hb).1
        have := hs.cut.2.1
        simp only at *
        omega
    exact if_neg (by simpa using hne)
  have hus : us.map (released [a + headerSize]) = us :=
    (List.map_congr_left fun b hb => hother b (List.mem_append_left _ hb)).trans (List.map_id us)
  have hvs : vs.map (released [a + headerSize]) = vs :=
    (List.map_congr_left fun b hb => hother b (List.mem_append_right _ hb)).trans (List.map_id vs)
  rw [List.map_append, List.map_cons, hus, hvs, released, if_pos (by simp)]

/-- What is left live after a release. -/
theorem live_released {p q n : ℕ} (hne : q ≠ p) (hl : Live bs q n) :
    Live (bs.map (released [p])) q n := by
  obtain ⟨b, hb, htag, rfl⟩ := hl
  refine ⟨b, List.mem_map.mpr ⟨b, hb, if_neg (by simpa using hne)⟩, htag, rfl⟩

/-- Freeing live blocks one after the other frees them all at once. -/
theorem Shape.kfreeAll (hs : Shape h start bs) (hsep : Separated bs) {ps : List ℕ}
    (hnodup : ps.Nodup) (hlive : ∀ p ∈ ps, ∃ n, Live bs p n) :
    ∃ h', Heap.kfreeAll h ps = .ok h' ∧ h'.heapWatermark = h.heapWatermark ∧
      Shape h' start (coalesce (bs.map (released ps))) := by
  induction ps generalizing h bs with
  | nil =>
    refine ⟨h, rfl, rfl, ?_⟩
    have hid : bs.map (released []) = bs := List.map_id'' (fun b => if_neg List.not_mem_nil) bs
    rw [hid, coalesce_of_apart hsep]
    exact hs
  | cons p ps ih =>
    obtain ⟨hp, hnodup'⟩ := List.nodup_cons.mp hnodup
    obtain ⟨n, ⟨a, s, tag⟩, hb, htag, rfl⟩ := hlive p (List.mem_cons_self ..)
    obtain rfl : tag = some n := htag
    obtain ⟨us, vs, rfl⟩ := List.append_of_mem hb
    obtain ⟨h₁, hok, hwm, -, hs₁⟩ := hs.kfree hsep
    have hmap := hs.map_released
    rw [← hmap] at hs₁
    obtain ⟨h', hok', hwm', hs'⟩ := ih hs₁ (coalesce_isChain _) hnodup' fun q hq => by
      obtain ⟨m, hm⟩ := hlive q (List.mem_cons_of_mem _ hq)
      have hne : q ≠ a + headerSize := fun he => hp (he ▸ hq)
      exact ⟨m, live_coalesce.mpr (live_released hne hm)⟩
    refine ⟨h', ?_, hwm'.trans hwm, ?_⟩
    · rw [Heap.kfreeAll, List.foldlM_cons, hok, Outcome.ok_bind]
      exact hok'
    -- merging between two frees changes nothing: what is merged is free already
    · rw [coalesce_map_coalesce _ (released_free ps), List.map_map] at hs'
      rwa [show released ps ∘ released [a + headerSize] = released ((a + headerSize) :: ps) from
        funext (released_cons _ ps)] at hs'

end Lists

/-- Freed in any order, the same live blocks leave the same free list; when no live
block remains, it is one block from the heap's start to the watermark. -/
theorem kfree_any_order (h : HeapState) (start : ℕ) (bs : List Block) (hs : Shape h start bs)
    (hsep : Separated bs) (ps qs : List ℕ) (hperm : ps.Perm qs) (hnodup : ps.Nodup)
    (hlive : ∀ p ∈ ps, ∃ n, Live bs p n) :
    ∃ h₁ h₂, kfreeAll h ps = .ok h₁ ∧ kfreeAll h qs = .ok h₂ ∧
      freeList h₁ = freeList h₂ ∧ h₁.heapWatermark = h₂.heapWatermark ∧
      ((∀ p n, Live bs p n → p ∈ ps) → start < h.heapWatermark →
        freeList h₁ = [(start, h₁.heapWatermark - start)]) := by
  obtain ⟨h₁, hok₁, hwm₁, hs₁⟩ := hs.kfreeAll hsep hnodup hlive
  obtain ⟨h₂, hok₂, hwm₂, hs₂⟩ := hs.kfreeAll hsep (hperm.nodup_iff.mp hnodup)
    fun q hq => hlive q (hperm.mem_iff.mpr hq)
  rw [← released_congr fun p => hperm.mem_iff] at hs₂
  refine ⟨h₁, h₂, hok₁, hok₂, by rw [hs₁.freeList_eq, hs₂.freeList_eq], hwm₁.trans hwm₂.symm, ?_⟩
  intro hall hlt
  have htiles : Tiles 16 start (bs.map (released ps)) h.heapWatermark :=
    (tiles_map (released_addr ps) (released_size ps)).mpr hs.tiles
  rw [hs₁.freeList_eq, coalesce_untagged htiles ?_ hlt, hwm₁]
  · rfl
  · intro x hx
    obtain ⟨b, hb, rfl⟩ := List.mem_map.mp hx
    unfold released
    split_ifs with hin
    · rfl
    · cases htag : b.tag with
      | none => rfl
      | some n => exact absurd (hall _ n ⟨b, hb, htag, rfl⟩) hin

/-- One page with a live block of 32 bytes and one of 4064 behind it. -/
def sampleBlocks : List Block := [⟨4096, 32, some 20⟩, ⟨4128, 4064, some 4050⟩]

def sampleHeap : HeapState where
  mem := write32 (write32 (fun _ => 0) 4096 32) 4128 4064
  freeListHead := 0
  heapWatermark := 8192
  paging := ⟨fun _ _ => 0, 0, fun _ => 0, true, ⟨fun _ => 0, 0, 0, 0⟩⟩

theorem sampleHeap_shape : Shape sampleHeap 4096 sampleBlocks where
  start_pos := by decide
  start_aligned := by decide
  watermark_lt := by decide
  watermark_aligned := by decide
  tiles := ⟨rfl, by decide, by decide, rfl, by decide, by decide, rfl⟩
  header := by
    intro b hb
    rcases List.mem_pair.mp hb with rfl | rfl
    · exact (read32_write32_disjoint _ _ (by decide)).trans (read32_write32_self _ _ (by decide))
    · exact read32_write32_self _ _ (by decide)
  list := ⟨rfl, by decide⟩
  fits := by
    intro b hb n hn
    rcases List.mem_pair.mp hb with rfl | rfl
    · cases hn
      decide
    · cases hn
      decide

theorem sampleBlocks_separated : Separated sampleBlocks := by
  simp [Separated, sampleBlocks, isFree]

theorem kfree_any_order_sample :
    ∃ h₁ h₂, kfreeAll sampleHeap [4104, 4136] = .ok h₁ ∧ kfreeAll sampleHeap [4136, 4104] = .ok h₂ ∧
      freeList h₁ = [(4096, 4096)] ∧ freeList h₂ = [(4096, 4096)] := by
  have hlive : ∀ p ∈ [4104, 4136], ∃ n, Live sampleBlocks p n := by
    intro p hp
    rcases List.mem_pair.mp hp with rfl | rfl
    · exact ⟨20, ⟨4096, 32, some 20⟩, by decide, rfl, rfl⟩
    · exact ⟨4050, ⟨4128, 4064, some 4050⟩, by decide, rfl, rfl⟩
  have hall : ∀ p n, Live sampleBlocks p n → p ∈ [4104, 4136] := by
    rintro p n ⟨b, hb, -, rfl⟩
    rcases List.mem_pair.mp hb with rfl | rfl <;> decide
  obtain ⟨h₁, h₂, hok₁, hok₂, hlist, -, hone⟩ := kfree_any_order sampleHeap 4096 sampleBlocks
    sampleHeap_shape sampleBlocks_separated [4104, 4136] [4136, 4104] (List.Perm.swap ..) (by decide)
    hlive
  obtain ⟨h, hok, hwm, -⟩ := sampleHeap_shape.kfreeAll sampleBlocks_separated (by decide) hlive
  cases hok.symm.trans hok₁
  have h1 : freeList h₁ = [(4096, 4096)] := by
    rw [hone hall (by decide), hwm]
    rfl
  exact ⟨h₁, h₂, hok₁, hok₂, h1, hlist ▸ h1⟩

end KallarOS.Heap
