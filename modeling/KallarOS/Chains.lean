import Mathlib

namespace KallarOS.Chains

variable {α : Type*}

/-- `next` leads from `a` through exactly the nodes of `xs` and arrives at `b`. -/
def Path (next : α → α) : α → List α → α → Prop
  | a, [], b => a = b
  | a, x :: xs, b => a = x ∧ Path next (next x) xs b

/-- A singly linked list: the path from its head reaches `null` and no node is `null`. -/
structure Linked (null : α) (next : α → α) (head : α) (xs : List α) : Prop where
  path : Path next head xs null
  nonnull : null ∉ xs

section Paths

variable {next next' : α → α} {a b : α} {xs ys : List α}

@[simp] theorem path_nil : Path next a [] b ↔ a = b := Iff.rfl

@[simp] theorem path_cons {x : α} :
    Path next a (x :: xs) b ↔ a = x ∧ Path next (next x) xs b := Iff.rfl

theorem path_append : Path next a (xs ++ ys) b ↔ ∃ c, Path next a xs c ∧ Path next c ys b := by
  induction xs generalizing a with
  | nil => simp
  | cons x xs ih => simp [ih, and_assoc]

theorem path_concat {x : α} : Path next a (xs ++ [x]) b ↔ Path next a xs x ∧ next x = b := by
  rw [path_append]
  constructor
  · rintro ⟨c, hc, rfl, hb⟩
    exact ⟨hc, hb⟩
  · rintro ⟨hc, hb⟩
    exact ⟨x, hc, rfl, hb⟩

theorem path_head (h : Path next a xs b) : a = xs.headD b := by
  cases xs with
  | nil => exact h
  | cons x xs => exact h.1

/-- Only the links of the nodes on the path matter. -/
theorem path_congr (h : ∀ x ∈ xs, next' x = next x) : Path next' a xs b ↔ Path next a xs b := by
  induction xs generalizing a with
  | nil => rfl
  | cons x xs ih =>
    rw [path_cons, path_cons, h x List.mem_cons_self,
      ih fun y hy => h y (List.mem_cons_of_mem x hy)]

/-- A path is led to another end by one link: that of its last node, or the head
when it has no node. -/
theorem path_relink {a' c : α} (h : Path next a xs b) (hhead : a' = if xs = [] then c else a)
    (hlast : ∀ x ∈ xs.getLast?, next' x = c) (hsame : ∀ x ∈ xs.dropLast, next' x = next x) :
    Path next' a' xs c := by
  rcases xs.eq_nil_or_concat' with rfl | ⟨ys, y, rfl⟩
  · simpa using hhead
  · rw [path_concat] at h ⊢
    rw [List.dropLast_concat] at hsame
    have ha : a' = a := by simpa using hhead
    exact ⟨ha ▸ (path_congr hsame).mpr h.1, hlast y (by simp)⟩

/-- A head pointer stands for one list only. -/
theorem Linked.unique {null : α} (hx : Linked null next a xs) (hy : Linked null next a ys) : xs = ys := by
  induction xs generalizing a ys with
  | nil =>
    cases ys with
    | nil => rfl
    | cons y ys => exact absurd (hy.path.1.symm.trans hx.path) fun h => hy.nonnull (h ▸ List.mem_cons_self)
  | cons x xs ih =>
    obtain ⟨hax, hpx⟩ := hx.path
    have hx' : Linked null next (next x) xs := ⟨hpx, fun h => hx.nonnull (List.mem_cons_of_mem x h)⟩
    cases ys with
    | nil => exact absurd (hax.symm.trans hy.path) fun h => hx.nonnull (h ▸ List.mem_cons_self)
    | cons y ys =>
      obtain ⟨hay, hpy⟩ := hy.path
      obtain rfl : x = y := hax.symm.trans hay
      rw [ih hx' ⟨hpy, fun h => hy.nonnull (List.mem_cons_of_mem x h)⟩]

end Paths

section Scan

variable [DecidableEq α]

/-- The C idiom `while (cur != null && !stop(cur)) { prev = cur; cur = next(cur); }`.
`none` means that `fuel` rounds were not enough. -/
def scan (null : α) (next : α → α) (stop : α → Bool) : ℕ → α → α → Option (α × α)
  | 0, _, _ => none
  | fuel + 1, cur, prev =>
    if cur = null ∨ stop cur then some (cur, prev)
    else scan null next stop fuel (next cur) cur

/-- On a linked list the walk ends at the first node that satisfies `stop`, with
the node before it (or the initial `prev`) as its companion. -/
theorem scan_linked {null : α} {next : α → α} (stop : α → Bool) {head : α} {xs : List α}
    (h : Linked null next head xs) {fuel : ℕ} (hf : xs.length < fuel) (prev : α) :
    scan null next stop fuel head prev =
      some ((xs.dropWhile (!stop ·)).headD null, (xs.takeWhile (!stop ·)).getLastD prev) := by
  induction xs generalizing head fuel prev with
  | nil =>
    obtain ⟨fuel, rfl⟩ : ∃ k, fuel = k + 1 := ⟨fuel - 1, by simp at hf; omega⟩
    have : head = null := h.path
    simp [scan, this]
  | cons x xs ih =>
    obtain ⟨fuel, rfl⟩ : ∃ k, fuel = k + 1 := ⟨fuel - 1, by simp at hf; omega⟩
    obtain ⟨rfl, hp⟩ := h.path
    have hx : head ≠ null := fun e => h.nonnull (e ▸ List.mem_cons_self)
    have htail : Linked null next (next head) xs :=
      ⟨hp, fun hm => h.nonnull (List.mem_cons_of_mem _ hm)⟩
    -- the walk stops here, or `head` becomes the companion of the rest
    by_cases hs : stop head
    · simp [scan, hs]
    · rw [scan, if_neg (by simp [hx, hs]), ih htail (by simpa using hf)]
      simp only [hs, Bool.not_false, List.dropWhile_cons_of_pos, List.takeWhile_cons_of_pos,
        List.getLastD_cons]

end Scan
end KallarOS.Chains
