import KallarOS.Chains

namespace KallarOS.Chains
open Function

variable {α ι : Type*} {null : α} {next : α → α} {head : ι → α} {q : ι → List α}

/-- Several linked lists that share one `next` field: no node is in two of them. -/
structure Queues (null : α) (next : α → α) (head : ι → α) (q : ι → List α) : Prop where
  linked : ∀ i, Linked null next (head i) (q i)
  nodup : ∀ i, (q i).Nodup
  apart : ∀ i j x, x ∈ q i → x ∈ q j → i = j

namespace Queues

theorem head_eq (h : Queues null next head q) (i : ι) : head i = (q i).headD null :=
  path_head (h.linked i).path

theorem head_eq_null (h : Queues null next head q) (i : ι) : head i = null ↔ q i = [] := by
  rw [h.head_eq]
  cases hq : q i with
  | nil => simp
  | cons x xs =>
    have hx : null ≠ x := fun he => (h.linked i).nonnull (by simp [hq, he])
    simp [hx.symm]

theorem head_of_cons (h : Queues null next head q) {i : ι} {x : α} {xs : List α}
    (hq : q i = x :: xs) : head i = x := by rw [h.head_eq, hq, List.headD_cons]

theorem path_of_cons (h : Queues null next head q) {i : ι} {x : α} {xs : List α}
    (hq : q i = x :: xs) : Path next (next x) xs null := by
  have hp := (h.linked i).path
  rw [hq] at hp
  exact hp.2

theorem next_eq (h : Queues null next head q) {i : ι} {x : α} {ys zs : List α}
    (hq : q i = ys ++ x :: zs) : next x = zs.headD null := by
  have hp := (h.linked i).path
  rw [hq, path_append] at hp
  obtain ⟨c, -, -, hz⟩ := hp
  exact path_head hz

/-- The links of nodes in no queue may be anything. -/
theorem congr {next' : α → α} (h : Queues null next head q)
    (hn : ∀ i, ∀ x ∈ q i, next' x = next x) : Queues null next' head q where
  linked i := ⟨(path_congr (hn i)).mpr (h.linked i).path, (h.linked i).nonnull⟩
  nodup := h.nodup
  apart := h.apart

theorem notMem_others (h : Queues null next head q) {i : ι} {x : α} (hx : x ∈ q i) :
    ∀ j, j ≠ i → x ∉ q j := fun j hj hxj => hj (h.apart j i x hxj hx)

theorem setFree [DecidableEq α] (h : Queues null next head q) {t : α} (ht : ∀ i, t ∉ q i) (v : α) :
    Queues null (update next t v) head q :=
  h.congr fun i _ hx => update_of_ne (ne_of_mem_of_not_mem hx (ht i)) _ _

variable [DecidableEq ι]

/-- One queue is exchanged for another over nodes that are in no other queue. -/
theorem replace (h : Queues null next head q) (i : ι) (next' : α → α) (a : α) (xs : List α)
    (hold : ∀ j, j ≠ i → ∀ x ∈ q j, next' x = next x) (hnew : Linked null next' a xs)
    (hnd : xs.Nodup) (hap : ∀ x ∈ xs, ∀ j, j ≠ i → x ∉ q j) :
    Queues null next' (update head i a) (update q i xs) where
  linked j := by
    by_cases hj : j = i
    · subst hj
      rwa [update_self, update_self]
    · rw [update_of_ne hj, update_of_ne hj]
      exact ⟨(path_congr (hold j hj)).mpr (h.linked j).path, (h.linked j).nonnull⟩
  nodup j := by
    by_cases hj : j = i
    · subst hj
      rwa [update_self]
    · rw [update_of_ne hj]
      exact h.nodup j
  apart j k x hj hk := by
    rw [update_apply] at hj hk
    split_ifs at hj hk with hji hki hki
    · rw [hji, hki]
    · exact absurd hk (hap x hj k hki)
    · exact absurd hj (hap x hk j hji)
    · exact h.apart j k x hj hk

theorem pop (h : Queues null next head q) {i : ι} {x : α} {xs : List α} (hq : q i = x :: xs) :
    Queues null next (update head i (next x)) (update q i xs) := by
  have hnd := h.nodup i
  have hnull := (h.linked i).nonnull
  rw [hq] at hnd hnull
  refine h.replace i _ _ _ (fun _ _ _ _ => rfl) ⟨h.path_of_cons hq, fun hm => hnull (by simp [hm])⟩
    (List.nodup_cons.mp hnd).2 fun y hy j hj hyj => hj ?_
  exact h.apart j i y hyj (by simp [hq, hy])

/-- Appending to an empty queue sets its head. -/
theorem pushNil (h : Queues null next head q) {i : ι} {t : α} (hq : q i = [])
    (ht : ∀ j, t ∉ q j) (h0 : t ≠ null) (hn : next t = null) :
    Queues null next (update head i t) (update q i (q i ++ [t])) := by
  rw [hq, List.nil_append]
  refine h.replace i _ _ _ (fun _ _ _ _ => rfl) ⟨⟨rfl, hn⟩, by simpa using h0.symm⟩
    (List.nodup_singleton t) fun x hx j _ => ?_
  rw [List.mem_singleton.mp hx]
  exact ht j

/-- A whole queue is handed to an empty one. -/
theorem move (h : Queues null next head q) {i j : ι} (hij : i ≠ j) (hq : q j = []) :
    Queues null next (update (update head j (head i)) i null) (update (update q j (q i)) i []) where
  linked k := by
    by_cases hki : k = i
    · subst hki
      rw [update_self, update_self]
      exact ⟨rfl, by simp⟩
    · rw [update_of_ne hki, update_of_ne hki]
      by_cases hkj : k = j
      · subst hkj
        rw [update_self, update_self]
        exact h.linked i
      · rw [update_of_ne hkj, update_of_ne hkj]
        exact h.linked k
  nodup k := by
    rw [update_apply, update_apply]
    split_ifs
    · exact List.nodup_nil
    · exact h.nodup i
    · exact h.nodup k
  apart k m x hk hm := by
    have hsource : ∀ k, x ∈ update (update q j (q i)) i [] k → k ≠ i ∧
        ((k = j ∧ x ∈ q i) ∨ (k ≠ j ∧ x ∈ q k)) := by
      intro k hk
      by_cases hki : k = i
      · simp [hki] at hk
      · rw [update_of_ne hki, update_apply] at hk
        split_ifs at hk with hkj
        · exact ⟨hki, .inl ⟨hkj, hk⟩⟩
        · exact ⟨hki, .inr ⟨hkj, hk⟩⟩
    obtain ⟨hki, ⟨rfl, hx⟩ | ⟨-, hx⟩⟩ := hsource k hk <;>
      obtain ⟨hmi, ⟨rfl, hx'⟩ | ⟨-, hx'⟩⟩ := hsource m hm
    · rfl
    · exact absurd (h.apart _ _ x hx' hx) hmi
    · exact absurd (h.apart _ _ x hx hx') hki
    · exact h.apart _ _ x hx hx'

variable [DecidableEq α]

/-- Appending to a queue with a last node sets that node's link. -/
theorem pushLast (h : Queues null next head q) {i : ι} {t l : α} {ys : List α}
    (hq : q i = ys ++ [l]) (ht : ∀ j, t ∉ q j) (h0 : t ≠ null) (hn : next t = null) :
    Queues null (update next l t) head (update q i (q i ++ [t])) := by
  have hlq : l ∈ q i := by simp [hq]
  have hnd := h.nodup i
  have htl : t ≠ l := fun he => ht i (he ▸ hlq)
  have hlys : l ∉ ys := by
    rw [hq, List.nodup_append] at hnd
    exact fun hl => hnd.2.2 l hl l (by simp) rfl
  have hrep := h.replace i (update next l t) (head i) (q i ++ [t])
    (fun j hj x hx => update_of_ne (ne_of_mem_of_not_mem hx (h.notMem_others hlq j hj)) _ _) ?_ ?_ ?_
  · rwa [update_eq_self] at hrep
  · refine ⟨path_concat.mpr ⟨?_, by rw [update_of_ne htl, hn]⟩, ?_⟩
    · have hp := (h.linked i).path
      rw [hq, path_concat] at hp
      rw [hq, path_concat, update_self]
      exact ⟨(path_congr fun x hx => update_of_ne (ne_of_mem_of_not_mem hx hlys) _ _).mpr hp.1, rfl⟩
    · have := (h.linked i).nonnull
      simp [this, h0.symm]
  · rw [List.nodup_append]
    refine ⟨hnd, List.nodup_singleton t, fun x hx y hy => ?_⟩
    rw [List.mem_singleton.mp hy]
    exact fun he => ht i (he ▸ hx)
  · intro x hx j hj
    rcases List.mem_append.mp hx with hx | hx
    · exact h.notMem_others hx j hj
    · rw [List.mem_singleton.mp hx]
      exact ht j

/-- A node behind another leaves its queue when that one's link skips it. -/
theorem unlink (h : Queues null next head q) {i : ι} {l x : α} {ys zs : List α}
    (hq : q i = ys ++ l :: x :: zs) :
    Queues null (update next l (next x)) head (update q i (ys ++ l :: zs)) := by
  have hlq : l ∈ q i := by simp [hq]
  have hnd := h.nodup i
  rw [hq, List.nodup_append] at hnd
  obtain ⟨hys, hnd, hdis⟩ := hnd
  have hlys : l ∉ ys := fun hl => hdis l hl l (by simp) rfl
  have hlzs : l ∉ zs := fun hl => (List.nodup_cons.mp hnd).1 (by simp [hl])
  have hsub : ∀ y ∈ ys ++ l :: zs, y ∈ q i := fun y hy => by
    rw [hq]
    simp only [List.mem_append, List.mem_cons] at hy ⊢
    tauto
  have hrep := h.replace i (update next l (next x)) (head i) (ys ++ l :: zs)
    (fun j hj y hy => update_of_ne (ne_of_mem_of_not_mem hy (h.notMem_others hlq j hj)) _ _) ?_ ?_
    fun y hy => h.notMem_others (hsub y hy)
  · rwa [update_eq_self] at hrep
  · refine ⟨?_, fun hm => (h.linked i).nonnull (hsub _ hm)⟩
    have hp := (h.linked i).path
    rw [hq, path_append] at hp
    obtain ⟨c, hc, rfl, -, hz⟩ := hp
    rw [path_append]
    refine ⟨c, (path_congr fun y hy => update_of_ne (ne_of_mem_of_not_mem hy hlys) _ _).mpr hc, rfl, ?_⟩
    rw [update_self]
    exact (path_congr fun y hy => update_of_ne (ne_of_mem_of_not_mem hy hlzs) _ _).mpr hz
  · refine List.nodup_append.mpr ⟨hys, ?_, fun y hy z hz => hdis y hy z ?_⟩
    · exact hnd.sublist (by simp)
    · simp only [List.mem_cons] at hz ⊢
      tauto

end Queues

end KallarOS.Chains
