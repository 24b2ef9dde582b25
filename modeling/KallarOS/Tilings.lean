import Mathlib

namespace KallarOS.Tilings

/-- A block of an address range, with a tag for what it is used as. -/
structure Tile (α : Type*) where
  addr : ℕ
  size : ℕ
  tag : α
deriving DecidableEq

variable {α : Type*} {u a e : ℕ} {xs ys : List (Tile α)} {x : Tile α}

/-- The tiles of `xs` cover `[a, e)` one after the other, each a positive multiple of `u`. -/
def Tiles (u : ℕ) : ℕ → List (Tile α) → ℕ → Prop
  | a, [], e => a = e
  | a, x :: xs, e => x.addr = a ∧ 0 < x.size ∧ u ∣ x.size ∧ Tiles u (a + x.size) xs e

@[simp] theorem tiles_nil : Tiles u a ([] : List (Tile α)) e ↔ a = e := Iff.rfl

@[simp] theorem tiles_cons :
    Tiles u a (x :: xs) e ↔ x.addr = a ∧ 0 < x.size ∧ u ∣ x.size ∧ Tiles u (a + x.size) xs e := Iff.rfl

theorem tiles_append : Tiles u a (xs ++ ys) e ↔ ∃ m, Tiles u a xs m ∧ Tiles u m ys e := by
  induction xs generalizing a with
  | nil => simp
  | cons x xs ih => simp [ih, and_assoc]

/-- Tags do not matter. -/
theorem tiles_map {β : Type*} {f : Tile α → Tile β} (haddr : ∀ x, (f x).addr = x.addr)
    (hsize : ∀ x, (f x).size = x.size) : Tiles u a (xs.map f) e ↔ Tiles u a xs e := by
  induction xs generalizing a with
  | nil => rfl
  | cons x xs ih => rw [List.map_cons, tiles_cons, tiles_cons, haddr, hsize, ih]

theorem Tiles.le (h : Tiles u a xs e) : a ≤ e := by
  induction xs generalizing a with
  | nil => exact h.le
  | cons x xs ih =>
    have := ih h.2.2.2
    omega

theorem Tiles.length_le (h : Tiles u a xs e) : a + xs.length ≤ e := by
  induction xs generalizing a with
  | nil => exact h.le
  | cons x xs ih =>
    have := ih h.2.2.2
    have := h.2.1
    simp only [List.length_cons]
    omega

theorem Tiles.mem_bounds (h : Tiles u a xs e) (hx : x ∈ xs) :
    a ≤ x.addr ∧ x.addr + x.size ≤ e ∧ 0 < x.size ∧ u ∣ x.size := by
  induction xs generalizing a with
  | nil => simp at hx
  | cons y xs ih =>
    obtain ⟨hy, hpos, hdvd, ht⟩ := h
    rcases List.mem_cons.mp hx with rfl | hx
    · exact ⟨hy.ge, hy ▸ ht.le, hpos, hdvd⟩
    · have := ih ht hx
      exact ⟨by omega, this.2⟩

theorem Tiles.aligned (h : Tiles u a xs e) (ha : u ∣ a) (hx : x ∈ xs) : u ∣ x.addr := by
  induction xs generalizing a with
  | nil => simp at hx
  | cons y xs ih =>
    obtain ⟨hy, -, hdvd, ht⟩ := h
    rcases List.mem_cons.mp hx with rfl | hx
    · exact hy ▸ ha
    · exact ih ht (ha.add hdvd) hx

theorem Tiles.stop_aligned (h : Tiles u a xs e) (ha : u ∣ a) : u ∣ e := by
  induction xs generalizing a with
  | nil => exact h ▸ ha
  | cons y xs ih => exact ih h.2.2.2 (ha.add h.2.2.1)

/-- Tiles come in address order and do not overlap. -/
theorem Tiles.pairwise (h : Tiles u a xs e) :
    xs.Pairwise fun x y => x.addr + x.size ≤ y.addr := by
  induction xs generalizing a with
  | nil => exact List.Pairwise.nil
  | cons x xs ih =>
    refine List.pairwise_cons.mpr ⟨fun y hy => ?_, ih h.2.2.2⟩
    rw [h.1]
    exact (h.2.2.2.mem_bounds hy).1

theorem Tiles.addr_lt (h : Tiles u a xs e) : (xs.map Tile.addr).Pairwise (· < ·) := by
  rw [List.pairwise_map]
  refine h.pairwise.imp_of_mem fun {x y} hx _ hxy => ?_
  have := (h.mem_bounds hx).2.2.1
  omega

/-- Different tiles do not overlap. -/
theorem Tiles.apart (h : Tiles u a xs e) {y : Tile α} (hx : x ∈ xs) (hy : y ∈ xs) (hne : x ≠ y) :
    x.addr + x.size ≤ y.addr ∨ y.addr + y.size ≤ x.addr := by
  obtain ⟨ys, zs, rfl⟩ := List.append_of_mem hx
  have hp := h.pairwise
  rw [List.pairwise_append, List.pairwise_cons] at hp
  rcases List.mem_append.mp hy with hy | hy
  · exact .inr (hp.2.2 y hy x (by simp))
  · rcases List.mem_cons.mp hy with hy | hy
    · exact absurd hy.symm hne
    · exact .inl (hp.2.1.1 y hy)

/-- An address names one tile. -/
theorem Tiles.eq_of_addr_eq (h : Tiles u a xs e) {y : Tile α} (hx : x ∈ xs) (hy : y ∈ xs)
    (he : x.addr = y.addr) : x = y := by
  by_contra hne
  have hx' := h.mem_bounds hx
  have hy' := h.mem_bounds hy
  rcases h.apart hx hy hne with h1 | h1 <;> omega

section Coalescing

variable {β : Type*} {ys zs : List (Tile (Option β))} {x y : Tile (Option β)} {b c s t : ℕ}

/-- Put a tile in front of others; two tiles without a tag that meet become one. -/
def join (x : Tile (Option β)) : List (Tile (Option β)) → List (Tile (Option β))
  | [] => [x]
  | y :: ys =>
    if x.tag.isNone ∧ y.tag.isNone then ⟨x.addr, x.size + y.size, none⟩ :: ys else x :: y :: ys

/-- The coarsest tiling with the same tagged tiles. -/
def coalesce (xs : List (Tile (Option β))) : List (Tile (Option β)) := xs.foldr join []

@[simp] theorem coalesce_nil : coalesce ([] : List (Tile (Option β))) = [] := rfl

@[simp] theorem coalesce_cons : coalesce (x :: ys) = join x (coalesce ys) := rfl

theorem coalesce_append : coalesce (ys ++ zs) = ys.foldr join (coalesce zs) := by
  rw [coalesce, List.foldr_append]
  rfl

@[simp] theorem join_tagged {v : β} : join ⟨b, s, some v⟩ ys = ⟨b, s, some v⟩ :: ys := by
  cases ys with
  | nil => rfl
  | cons y ys => rw [join, if_neg (by simp)]

@[simp] theorem join_free_free :
    join (⟨b, s, none⟩ : Tile (Option β)) (⟨c, t, none⟩ :: ys) = ⟨b, s + t, none⟩ :: ys := by
  rw [join, if_pos (by simp)]

@[simp] theorem join_free_tagged {v : β} :
    join (⟨b, s, none⟩ : Tile (Option β)) (⟨c, t, some v⟩ :: ys) =
      ⟨b, s, none⟩ :: ⟨c, t, some v⟩ :: ys := by
  rw [join, if_neg (by simp)]

theorem join_of_apart (h : ∀ y ∈ ys.head?, ¬(x.tag.isNone ∧ y.tag.isNone)) :
    join x ys = x :: ys := by
  cases ys with
  | nil => rfl
  | cons y ys => rw [join, if_neg (h y rfl)]

theorem join_join_free :
    join (⟨b, s, none⟩ : Tile (Option β)) (join ⟨c, t, none⟩ ys) = join ⟨b, s + t, none⟩ ys := by
  rcases ys with - | ⟨⟨d, u, - | v⟩, ys⟩
  · rw [join, join_free_free]
    rfl
  · rw [join_free_free, join_free_free, join_free_free, Nat.add_assoc]
  · rw [join_free_tagged, join_free_tagged, join_free_free]

/-- `join` keeps where the first tile starts and whether it has a tag. -/
theorem join_head (x : Tile (Option β)) (ys : List (Tile (Option β))) :
    ∃ t zs, join x ys = ⟨x.addr, t, x.tag⟩ :: zs := by
  cases ys with
  | nil => exact ⟨x.size, [], rfl⟩
  | cons y ys =>
    rw [join]
    split_ifs with h
    · exact ⟨x.size + y.size, ys, by rw [Option.isNone_iff_eq_none.mp h.1]⟩
    · exact ⟨x.size, y :: ys, rfl⟩

theorem coalesce_of_apart (h : ys.IsChain fun x y => ¬(x.tag.isNone ∧ y.tag.isNone)) :
    coalesce ys = ys := by
  induction ys with
  | nil => rfl
  | cons x ys ih =>
    obtain ⟨hx, hys⟩ := List.isChain_cons.mp h
    rw [coalesce_cons, ih hys, join_of_apart hx]

/-- No two tiles without a tag are left side by side. -/
theorem coalesce_isChain (ys : List (Tile (Option β))) :
    (coalesce ys).IsChain fun x y => ¬(x.tag.isNone ∧ y.tag.isNone) := by
  induction ys with
  | nil => exact .nil
  | cons x ys ih =>
    rw [coalesce_cons]
    generalize coalesce ys = zs at ih
    rcases zs with - | ⟨y, zs⟩
    · exact .singleton x
    -- the merged tile meets what the second one met
    · rw [join]
      split_ifs with h
      · obtain ⟨hy, hzs⟩ := List.isChain_cons.mp ih
        exact List.isChain_cons.mpr ⟨fun z hz hc => hy z hz ⟨h.2, hc.2⟩, hzs⟩
      · exact List.isChain_cons.mpr ⟨fun z hz => Option.some.inj hz ▸ h, ih⟩

/-- The tagged tiles stay. -/
theorem mem_coalesce (hx : x.tag ≠ none) : x ∈ coalesce ys ↔ x ∈ ys := by
  have hjoin : ∀ (y : Tile (Option β)) (zs), x ∈ join y zs ↔ x = y ∨ x ∈ zs := by
    intro y zs
    rcases zs with - | ⟨z, zs⟩
    · rw [join, List.mem_singleton]
      simp
    · rw [join]
      split_ifs with h
      · have hy : x ≠ y := fun he => hx (he ▸ Option.isNone_iff_eq_none.mp h.1)
        have hz : x ≠ z := fun he => hx (he ▸ Option.isNone_iff_eq_none.mp h.2)
        have hm : x ≠ ⟨y.addr, y.size + z.size, none⟩ := fun he => hx (he ▸ rfl)
        simp [hy, hz, hm]
      · exact List.mem_cons
  induction ys with
  | nil => simp
  | cons y ys ih => simp only [coalesce_cons, hjoin, ih, List.mem_cons]

/-- Joining to the left of a list without free neighbours reaches one tile only. -/
theorem foldr_join_concat
    (h : (zs ++ [x]).IsChain fun x y => ¬(x.tag.isNone ∧ y.tag.isNone)) :
    (zs ++ [x]).foldr join ys = zs ++ join x ys := by
  induction zs with
  | nil => rfl
  | cons z zs ih =>
    obtain ⟨hz, hzs⟩ := List.isChain_cons.mp (show (z :: (zs ++ [x])).IsChain _ from h)
    rw [List.cons_append, List.foldr_cons, ih hzs, List.cons_append]
    apply join_of_apart
    intro y hy
    cases zs with
    | nil =>
      obtain ⟨t, ws, hjoin⟩ := join_head x ys
      rw [List.nil_append, hjoin] at hy
      rw [← Option.some.inj hy]
      exact hz x rfl
    | cons w zs => exact hz y hy

/-- Removing tags commutes with coalescing. -/
theorem coalesce_map_coalesce (f : Tile (Option β) → Tile (Option β))
    (hfree : ∀ b s, f ⟨b, s, none⟩ = ⟨b, s, none⟩) :
    coalesce ((coalesce ys).map f) = coalesce (ys.map f) := by
  induction ys with
  | nil => rfl
  | cons x ys ih =>
    rw [coalesce_cons, List.map_cons, coalesce_cons, ← ih]
    generalize coalesce ys = zs
    obtain ⟨b, s, - | v⟩ := x
    · rcases zs with - | ⟨⟨c, t, - | w⟩, zs⟩
      · rfl
      · rw [join_free_free, List.map_cons, List.map_cons, hfree, hfree, hfree, coalesce_cons,
          coalesce_cons, join_join_free]
      · rw [join_free_tagged, List.map_cons, coalesce_cons]
    · rw [join_tagged, List.map_cons, coalesce_cons]

/-- Without any tag one tile is left. -/
theorem coalesce_untagged (h : Tiles u a ys e) (hfree : ∀ x ∈ ys, x.tag = none) (hlt : a < e) :
    coalesce ys = [⟨a, e - a, none⟩] := by
  induction ys generalizing a with
  | nil => exact absurd h.symm hlt.ne'
  | cons x ys ih =>
    obtain ⟨hx, hpos, -, ht⟩ := h
    obtain ⟨b, s, tag⟩ := x
    obtain rfl : tag = none := hfree _ (List.mem_cons_self ..)
    simp only at hx hpos ht
    subst hx
    rw [coalesce_cons]
    rcases ht.le.eq_or_lt with hend | hlt'
    · have hnil : ys = [] := by
        have := ht.length_le
        exact List.eq_nil_of_length_eq_zero (by omega)
      subst hnil
      rw [coalesce_nil, join, show s = e - b by omega]
    · rw [ih ht (fun x hx => hfree x (List.mem_cons_of_mem _ hx)) hlt', join_free_free,
        show s + (e - (b + s)) = e - b by omega]

end Coalescing

end KallarOS.Tilings
