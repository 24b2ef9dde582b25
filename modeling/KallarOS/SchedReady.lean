import KallarOS.SchedRuns

namespace KallarOS.Sched
open Function Chains Pmm

/-- The ready queues as three lists, with the control blocks. -/
@[ext] structure ReadyLists where
  tcb : ℕ → Thread
  queue : Fin 3 → List ℕ

/-- `priority = 0; remaining_time = FIRST_LIMIT`, as a reset leaves a lower thread. -/
def Thread.renewed (t : Thread) : Thread := { t with priority := 0, remainingTime := firstLimit }

namespace ReadyLists

variable (a : ReadyLists)

def empty (tcb : ℕ → Thread) : ReadyLists := ⟨tcb, fun _ => []⟩

def enqueue (t : ℕ) (p : Fin 3) : ReadyLists :=
  ⟨update a.tcb t { a.tcb t with priority := p }, update a.queue p (a.queue p ++ [t])⟩

/-- The first thread of list `i`. -/
def take (i : Fin 3) : ℕ × ReadyLists :=
  ((a.queue i).headD 0, { a with queue := update a.queue i (a.queue i).tail })

def dequeue : ℕ × ReadyLists :=
  if a.queue 0 ≠ [] then a.take 0
  else if a.queue 1 ≠ [] then a.take 1
  else if a.queue 2 ≠ [] then a.take 2
  else (0, a)

/-- List `i` goes behind list 0. -/
def drain (i : Fin 3) : ReadyLists :=
  ⟨fun t => if t ∈ a.queue i then (a.tcb t).renewed else a.tcb t,
    update (update a.queue 0 (a.queue 0 ++ a.queue i)) i []⟩

def reset : ReadyLists :=
  ⟨fun t => if t ∈ a.queue 1 ∨ t ∈ a.queue 2 then (a.tcb t).renewed else a.tcb t,
    ![a.queue 0 ++ a.queue 1 ++ a.queue 2, [], []]⟩

/-- Everything that is queued. -/
def all : List ℕ := a.queue 0 ++ a.queue 1 ++ a.queue 2

end ReadyLists

/-- The pointers of the ready queues stand for the lists; a last pointer counts only
while its queue has a thread. -/
structure Threaded (s : SchedState) (a : ReadyLists) : Prop where
  tcb : s.tcb = a.tcb
  queues : Queues 0 s.next (fun i : Fin 3 => s.firstReady i) a.queue
  last : ∀ i, ∀ t ∈ (a.queue i).getLast?, s.lastReady i = t
  alive : ∀ i, ∀ t ∈ a.queue i, t ∈ s.alive
  lt : ∀ i, ∀ t ∈ a.queue i, t < 2 ^ 32
  level : ∀ i, ∀ t ∈ a.queue i, (a.tcb t).priority = i

/-- Only what the ready queues are made of differs. -/
def OnlyReady (s s' : SchedState) : Prop :=
  s' = { s with
    tcb := s'.tcb
    counter := s'.counter
    next := s'.next
    firstReady := s'.firstReady
    lastReady := s'.lastReady }

theorem OnlyReady.trans {s s' s'' : SchedState} (h : OnlyReady s s') (h' : OnlyReady s' s'') :
    OnlyReady s s'' := by
  unfold OnlyReady at h h' ⊢
  rw [h', h]

theorem OnlyReady.alive_eq {s s' : SchedState} (h : OnlyReady s s') : s'.alive = s.alive := by
  rw [h]

namespace Threaded

variable {s : SchedState} {a : ReadyLists} {t : ℕ} {i p : Fin 3} {ts : List ℕ}

theorem first_eq_zero (h : Threaded s a) (i : Fin 3) : s.firstReady i = 0 ↔ a.queue i = [] :=
  h.queues.head_eq_null i

theorem nonzero (h : Threaded s a) (ht : t ∈ a.queue i) : t ≠ 0 := by
  rintro rfl
  exact (h.queues.linked i).nonnull ht

theorem length_lt (h : Threaded s a) (i : Fin 3) : (a.queue i).length < 2 ^ 32 := by
  have hsub : (a.queue i).toFinset ⊆ (Finset.range (2 ^ 32)).erase 0 := by
    intro t ht
    have ht := List.mem_toFinset.mp ht
    exact Finset.mem_erase.mpr ⟨h.nonzero ht, Finset.mem_range.mpr (h.lt i t ht)⟩
  have hcard := Finset.card_le_card hsub
  rw [List.toFinset_card_of_nodup (h.queues.nodup i), Finset.card_erase_of_mem (by simp),
    Finset.card_range] at hcard
  omega

/-- A thread in no list may get any control block and any link. -/
theorem setFree (h : Threaded s a) (hfree : ∀ i, t ∉ a.queue i) (v : ℕ) (th : Thread) :
    Threaded { s with next := update s.next t v, tcb := update s.tcb t th }
      { a with tcb := update a.tcb t th } where
  tcb := by rw [← h.tcb]
  queues := h.queues.setFree hfree v
  last := h.last
  alive := h.alive
  lt := h.lt
  level i x hx := by
    have hxt : x ≠ t := fun he => hfree i (he ▸ hx)
    change (update a.tcb t th x).priority = i
    rw [update_of_ne hxt]
    exact h.level i x hx

theorem update_first (s : SchedState) (p : Fin 3) (v : ℕ) :
    (fun i : Fin 3 => update s.firstReady p v i) = update (fun i : Fin 3 => s.firstReady i) p v := by
  funext i
  by_cases hi : i = p
  · simp [hi]
  · have hne : (i : ℕ) ≠ p := fun he => hi (Fin.ext he)
    rw [update_of_ne hne, update_of_ne hi]

/-- `thread_priority` has been set and the link cleared: the thread goes to the tail. -/
theorem appendReady (h : Threaded s a) (hal : t ∈ s.alive) (h0 : t ≠ 0) (hlt : t < 2 ^ 32)
    (hfree : ∀ i, t ∉ a.queue i) (hnext : s.next t = 0) (hprio : (a.tcb t).priority = p) :
    ∃ s', appendReady s t p = .ok s' ∧ OnlyReady s s' ∧
      Threaded s' { a with queue := update a.queue p (a.queue p ++ [t]) } := by
  have hp : ¬ 3 ≤ (p : ℕ) := by omega
  -- what does not depend on whether the queue was empty
  have hmem : ∀ {i x}, x ∈ update a.queue p (a.queue p ++ [t]) i → x ∈ a.queue i ∨ (x = t ∧ i = p) := by
    intro i x hx
    by_cases hi : i = p
    · rw [hi, update_self, List.mem_append, List.mem_singleton] at hx
      exact hx.imp (fun hx => hi ▸ hx) fun hx => ⟨hx, hi⟩
    · rw [update_of_ne hi] at hx
      exact .inl hx
  have build : ∀ {s'}, s'.tcb = s.tcb → s'.alive = s.alive → s'.lastReady = update s.lastReady p t →
      Queues 0 s'.next (fun i : Fin 3 => s'.firstReady i) (update a.queue p (a.queue p ++ [t])) →
      Threaded s' { a with queue := update a.queue p (a.queue p ++ [t]) } := by
    intro s' htcb halive hlast hq
    refine ⟨htcb.trans h.tcb, hq, fun i x hx => ?_, fun i x hx => ?_, fun i x hx => ?_, fun i x hx => ?_⟩
    · rw [hlast]
      by_cases hi : i = p
      · have hx' : x = t := by
          change x ∈ (update a.queue p (a.queue p ++ [t]) i).getLast? at hx
          rw [hi, update_self] at hx
          simpa [eq_comm] using hx
        rw [hi, update_self, hx']
      · have hne : (i : ℕ) ≠ p := fun he => hi (Fin.ext he)
        change x ∈ (update a.queue p (a.queue p ++ [t]) i).getLast? at hx
        rw [update_of_ne hi] at hx
        rw [update_of_ne hne]
        exact h.last i x hx
    · rw [halive]
      rcases hmem hx with hx | ⟨rfl, -⟩
      · exact h.alive i x hx
      · exact hal
    · rcases hmem hx with hx | ⟨rfl, -⟩
      · exact h.lt i x hx
      · exact hlt
    · rcases hmem hx with hx | ⟨rfl, rfl⟩
      · exact h.level i x hx
      · exact hprio
  rw [Sched.appendReady, if_neg hp, appendTail]
  rcases (a.queue p).eq_nil_or_concat' with hq | ⟨ys, l, hq⟩
  · rw [if_pos ((h.first_eq_zero p).mpr hq)]
    refine ⟨_, rfl, rfl, build rfl rfl rfl ?_⟩
    change Queues 0 s.next (fun i : Fin 3 => update s.firstReady p t i) _
    rw [update_first]
    exact h.queues.pushNil hq hfree h0 hnext
  · have hlast : s.lastReady p = l := h.last p l (by simp [hq])
    have hlal : l ∈ s.alive := h.alive p l (by simp [hq])
    have hne : ¬ s.firstReady p = 0 := fun hz => by simp [(h.first_eq_zero p).mp hz] at hq
    rw [if_neg hne, hlast, SchedState.writeNext, if_pos hlal, Outcome.ok_bind]
    exact ⟨_, rfl, rfl, build rfl rfl rfl (h.queues.pushLast hq hfree h0 hnext)⟩

theorem enqueueThread (h : Threaded s a) (hal : t ∈ s.alive) (h0 : t ≠ 0) (hlt : t < 2 ^ 32)
    (hfree : ∀ i, t ∉ a.queue i) :
    ∃ s', enqueueThread s t p = .ok s' ∧ OnlyReady s s' ∧ Threaded s' (a.enqueue t p) := by
  have h1 := h.setFree hfree 0 { a.tcb t with priority := p }
  rw [Sched.enqueueThread, SchedState.writeNext, if_pos hal, Outcome.ok_bind, SchedState.modify,
    if_pos (by exact hal), Outcome.ok_bind]
  rw [← h.tcb] at h1
  obtain ⟨s', hs', honly, h'⟩ := h1.appendReady (p := p) hal h0 hlt hfree (update_self ..) (by simp)
  refine ⟨s', hs', OnlyReady.trans (by exact rfl) honly, ?_⟩
  rw [ReadyLists.enqueue, ← h.tcb]
  exact h'

/-- The head pointer of list `i` moves on. -/
theorem pop (h : Threaded s a) (hq : a.queue i = t :: ts) :
    Threaded { s with firstReady := update s.firstReady i (s.next t) }
      { a with queue := update a.queue i ts } := by
  have hsub : ∀ {j x}, x ∈ update a.queue i ts j → x ∈ a.queue j := by
    intro j x hx
    by_cases hj : j = i
    · rw [hj, update_self] at hx
      rw [hj, hq]
      exact List.mem_cons_of_mem t hx
    · rwa [update_of_ne hj] at hx
  refine ⟨h.tcb, ?_, fun j x hx => ?_, fun j x hx => h.alive j x (hsub hx),
    fun j x hx => h.lt j x (hsub hx), fun j x hx => h.level j x (hsub hx)⟩
  · change Queues 0 s.next (fun j : Fin 3 => update s.firstReady i (s.next t) j) _
    rw [update_first]
    exact h.queues.pop hq
  -- the last pointer is left as it is; it counts again when a thread arrives
  · refine h.last j x ?_
    change x ∈ (update a.queue i ts j).getLast? at hx
    by_cases hj : j = i
    · rw [hj, update_self] at hx
      rw [hj, hq]
      cases ts with
      | nil => simp at hx
      | cons y ys => simpa [List.getLast?_cons] using hx
    · rwa [update_of_ne hj] at hx

theorem take (h : Threaded s a) (hne : a.queue i ≠ []) :
    ∃ s', (do
      let next ← s.readNext (s.firstReady i)
      return (s.firstReady i, { s with firstReady := update s.firstReady i next })) =
        .ok ((a.take i).1, s') ∧ OnlyReady s s' ∧ Threaded s' (a.take i).2 := by
  obtain ⟨t, ts, hq⟩ := List.exists_cons_of_ne_nil hne
  have hfirst : s.firstReady i = t := h.queues.head_of_cons hq
  have hal : t ∈ s.alive := h.alive i t (by simp [hq])
  rw [hfirst, SchedState.readNext, if_pos hal, Outcome.ok_bind, ReadyLists.take, hq, List.headD_cons,
    List.tail_cons]
  exact ⟨_, rfl, rfl, h.pop hq⟩

theorem dequeueThread (h : Threaded s a) :
    ∃ s', dequeueThread s = .ok (a.dequeue.1, s') ∧ OnlyReady s s' ∧ Threaded s' a.dequeue.2 := by
  have h0 := h.first_eq_zero 0
  have h1 := h.first_eq_zero 1
  have h2 := h.first_eq_zero 2
  have hfind : ([0, 1, 2].find? fun i => s.firstReady i ≠ 0) =
      if a.queue 0 ≠ [] then some 0 else if a.queue 1 ≠ [] then some 1
      else if a.queue 2 ≠ [] then some 2 else none := by
    simp only [Fin.val_zero, Fin.val_one, Fin.val_two] at h0 h1 h2
    simp only [List.find?_cons, List.find?_nil, ne_eq, h0, h1, h2]
    split_ifs <;> simp_all
  rw [Sched.dequeueThread, hfind, ReadyLists.dequeue]
  split_ifs with hq0 hq1 hq2
  · exact h.take hq0
  · exact h.take hq1
  · exact h.take hq2
  · exact ⟨s, rfl, rfl, h⟩

/-- One turn of the reset loop: the first thread of list `i` goes to the tail of list 0. -/
theorem drainTurn (h : Threaded s a) (hi : i ≠ 0) (hq : a.queue i = t :: ts) (fuel : ℕ) :
    ∃ s', drainQueue i (fuel + 1) s = drainQueue i fuel s' ∧ OnlyReady s s' ∧
      Threaded s' ⟨update a.tcb t (a.tcb t).renewed,
        update (update a.queue i ts) 0 (a.queue 0 ++ [t])⟩ := by
  have hmem : t ∈ a.queue i := by simp [hq]
  have hal := h.alive i t hmem
  have hnd := h.queues.nodup i
  rw [hq] at hnd
  have hfirst : s.firstReady i = t := h.queues.head_of_cons hq
  have hival : (i : ℕ) ≠ 0 := fun he => hi (Fin.ext he)
  have hfree : ∀ j, t ∉ update a.queue i ts j := by
    intro j hj
    by_cases hji : j = i
    · rw [hji, update_self] at hj
      exact (List.nodup_cons.mp hnd).1 hj
    · rw [update_of_ne hji] at hj
      exact hji (h.queues.apart j i t hj hmem)
  set s1 : SchedState := { s with
    tcb := update s.tcb t { s.tcb t with remainingTime := firstLimit } } with hs1
  have h1 := (h.pop hq).setFree hfree (s.next t) { a.tcb t with remainingTime := firstLimit }
  rw [update_eq_self, ← h.tcb] at h1
  obtain ⟨s', hs', honly, h'⟩ := h1.enqueueThread (p := 0) hal (h.nonzero hmem) (h.lt i t hmem) hfree
  refine ⟨s', ?_, OnlyReady.trans (by exact rfl) honly, ?_⟩
  -- the source appends first and moves the head afterwards
  · have hcomm : Sched.enqueueThread { s1 with firstReady := update s1.firstReady i (s.next t) } t 0 =
        .ok s' := hs'
    rw [Rep.enqueueThread_firstReady hival s1] at hcomm
    rw [drainQueue, hfirst, if_neg (h.nonzero hmem), SchedState.readNext, if_pos hal, Outcome.ok_bind,
      SchedState.modify, if_pos hal, Outcome.ok_bind]
    simp only [hfirst]
    cases he : Sched.enqueueThread s1 t 0 with
    | error e => simp [he, Except.map] at hcomm
    | ok s2 =>
      rw [he] at hcomm
      cases hcomm
      rfl
  · have hlists : ReadyLists.enqueue ⟨update s.tcb t { s.tcb t with remainingTime := firstLimit },
        update a.queue i ts⟩ t 0 = ⟨update a.tcb t (a.tcb t).renewed,
          update (update a.queue i ts) 0 (a.queue 0 ++ [t])⟩ := by
      refine ReadyLists.ext ?_ ?_
      · simp [ReadyLists.enqueue, h.tcb, Thread.renewed]
      · simp [ReadyLists.enqueue, Ne.symm hi]
    rw [← hlists]
    exact h'

theorem drain_turn (hi : i ≠ 0) (hq : a.queue i = t :: ts) :
    ReadyLists.drain ⟨update a.tcb t (a.tcb t).renewed,
      update (update a.queue i ts) 0 (a.queue 0 ++ [t])⟩ i = a.drain i := by
  refine ReadyLists.ext ?_ ?_
  · funext x
    simp only [ReadyLists.drain, update_of_ne hi, update_self, hq, List.mem_cons]
    by_cases hx : x = t
    · simp [hx, Thread.renewed]
    · simp [hx]
  · simp only [ReadyLists.drain, update_of_ne hi, update_self, hq]
    funext j
    by_cases hj : j = i
    · simp [hj]
    · by_cases hj0 : j = 0
      · simp [hj0, Ne.symm hi]
      · simp [hj, hj0]

theorem drainQueue {fuel : ℕ} (h : Threaded s a) (hi : i ≠ 0) (hf : (a.queue i).length < fuel) :
    ∃ s', drainQueue i fuel s = .ok s' ∧ OnlyReady s s' ∧ Threaded s' (a.drain i) := by
  induction hq : a.queue i generalizing s a fuel with
  | nil =>
    obtain ⟨fuel, rfl⟩ : ∃ k, fuel = k + 1 := ⟨fuel - 1, by omega⟩
    have hsame : a.drain i = a := by
      refine ReadyLists.ext ?_ ?_
      · simp [ReadyLists.drain, hq]
      · simp only [ReadyLists.drain, hq, List.append_nil, update_eq_self]
        rw [← hq, update_eq_self]
    rw [Sched.drainQueue, if_pos ((h.first_eq_zero i).mpr hq), hsame]
    exact ⟨s, rfl, rfl, h⟩
  | cons t ts ih =>
    rw [hq, List.length_cons] at hf
    obtain ⟨fuel, rfl⟩ : ∃ k, fuel = k + 1 := ⟨fuel - 1, by omega⟩
    obtain ⟨s₁, hs₁, honly, h₁⟩ := h.drainTurn hi hq fuel
    have hts : update (update a.queue i ts) 0 (a.queue 0 ++ [t]) i = ts := by
      rw [update_of_ne hi, update_self]
    have hlen : (update (update a.queue i ts) 0 (a.queue 0 ++ [t]) i).length < fuel := by
      rw [hts]
      omega
    obtain ⟨s', hs', honly', h'⟩ := ih h₁ hlen hts
    rw [drain_turn hi hq] at h'
    exact ⟨s', hs₁.trans hs', honly.trans honly', h'⟩

theorem resetQueue (h : Threaded s a) (hi : i ≠ 0) :
    ∃ s', resetQueue s i = .ok s' ∧ OnlyReady s s' ∧ Threaded s' (a.drain i) := by
  obtain ⟨s', hs', honly, h'⟩ := h.drainQueue hi (h.length_lt i)
  rw [Sched.resetQueue, walkFuel, hs', Outcome.ok_bind]
  refine ⟨_, rfl, honly.trans rfl, h'.tcb, h'.queues, fun j x hx => ?_, h'.alive, h'.lt, h'.level⟩
  by_cases hj : j = i
  · rw [hj, ReadyLists.drain] at hx
    simp at hx
  · have hne : (j : ℕ) ≠ i := fun he => hj (Fin.ext he)
    change update s'.lastReady i 0 j = x
    rw [update_of_ne hne]
    exact h'.last j x hx

theorem drain_drain (a : ReadyLists) : (a.drain 1).drain 2 = a.reset := by
  refine ReadyLists.ext ?_ ?_
  · funext x
    simp only [ReadyLists.drain, ReadyLists.reset]
    by_cases hx1 : x ∈ a.queue 1 <;> by_cases hx2 : x ∈ a.queue 2 <;> simp [hx1, hx2, Thread.renewed]
  · funext j
    fin_cases j <;> simp [ReadyLists.drain, ReadyLists.reset]

theorem resetQueues (h : Threaded s a) :
    ∃ s', resetQueues s = .ok s' ∧ OnlyReady s s' ∧ Threaded s' a.reset := by
  obtain ⟨s₁, hs₁, honly₁, h₁⟩ := h.resetQueue (i := 1) (by decide)
  obtain ⟨s₂, hs₂, honly₂, h₂⟩ := h₁.resetQueue (i := 2) (by decide)
  rw [drain_drain] at h₂
  have hreset : Sched.resetQueues s = .ok { s₂ with counter := 0 } := by
    rw [Sched.resetQueues]
    rw [show Sched.resetQueue s 1 = .ok s₁ from hs₁, Outcome.ok_bind,
      show Sched.resetQueue s₁ 2 = .ok s₂ from hs₂]
    rfl
  exact ⟨_, hreset, (honly₁.trans honly₂).trans rfl, h₂.tcb, h₂.queues, h₂.last, h₂.alive, h₂.lt,
    h₂.level⟩

end Threaded

section Runs

inductive ReadyCall where
  | enqueue (thread : ℕ) (priority : Fin 3)
  | dequeue
  | reset

/-- The threads returned (NULL included) and the state after one call. -/
def serve (s : SchedState) : ReadyCall → Outcome (List ℕ × SchedState)
  | .enqueue t p => do
    let s ← enqueueThread s t p
    return ([], s)
  | .dequeue => do
    let (t, s) ← dequeueThread s
    return ([t], s)
  | .reset => do
    let s ← resetQueues s
    return ([], s)

def serveAll : List ReadyCall → SchedState → Outcome (List ℕ × SchedState)
  | [], s => .ok ([], s)
  | c :: cs, s => do
    let (ts, s) ← serve s c
    let (us, s) ← serveAll cs s
    return (ts ++ us, s)

/-- The threads given to `enqueue_thread`. -/
def ReadyCall.entered : ReadyCall → List ℕ
  | .enqueue t _ => [t]
  | _ => []

namespace ReadyLists

def serve (a : ReadyLists) : ReadyCall → List ℕ × ReadyLists
  | .enqueue t p => ([], a.enqueue t p)
  | .dequeue => ([a.dequeue.1], a.dequeue.2)
  | .reset => ([], a.reset)

def serveAll : List ReadyCall → ReadyLists → List ℕ × ReadyLists
  | [], a => ([], a)
  | c :: cs, a => ((a.serve c).1 ++ (serveAll cs (a.serve c).2).1, (serveAll cs (a.serve c).2).2)

/-- A thread that is enqueued is an allocated control block in no list. -/
def Fits (alive : Finset ℕ) (a : ReadyLists) : ReadyCall → Prop
  | .enqueue t _ => t ∈ alive ∧ t ≠ 0 ∧ t < 2 ^ 32 ∧ ∀ i, t ∉ a.queue i
  | _ => True

def Admits (alive : Finset ℕ) : List ReadyCall → ReadyLists → Prop
  | [], _ => True
  | c :: cs, a => a.Fits alive c ∧ Admits alive cs (a.serve c).2

instance decidableFits (alive : Finset ℕ) (a : ReadyLists) :
    (c : ReadyCall) → Decidable (a.Fits alive c)
  | .enqueue _ _ => inferInstanceAs (Decidable (_ ∧ _))
  | .dequeue => inferInstanceAs (Decidable True)
  | .reset => inferInstanceAs (Decidable True)

instance decidableAdmits (alive : Finset ℕ) :
    (cs : List ReadyCall) → (a : ReadyLists) → Decidable (Admits alive cs a)
  | [], _ => inferInstanceAs (Decidable True)
  | c :: cs, a =>
    have := decidableAdmits alive cs (a.serve c).2
    inferInstanceAs (Decidable (_ ∧ _))

variable {a : ReadyLists}

theorem count_all (a : ReadyLists) (x : ℕ) :
    a.all.count x = (a.queue 0).count x + (a.queue 1).count x + (a.queue 2).count x := by
  rw [all, List.count_append, List.count_append]

theorem mem_all {x : ℕ} : x ∈ a.all ↔ ∃ i, x ∈ a.queue i := by
  simp [all, Fin.exists_fin_succ]

theorem take_perm {i : Fin 3} (hne : a.queue i ≠ []) :
    a.all.Perm ((a.take i).1 :: (a.take i).2.all) := by
  obtain ⟨t, ts, hq⟩ := List.exists_cons_of_ne_nil hne
  refine List.perm_iff_count.mpr fun x => ?_
  have hcount : (a.queue i).count x = ts.count x + if t = x then 1 else 0 := by
    rw [hq, List.count_cons]
    simp
  have htake : (a.take i).1 = t ∧ (a.take i).2.queue = update a.queue i ts := by
    simp [take, hq]
  rw [List.count_cons, count_all, count_all, htake.1, htake.2]
  fin_cases i <;> simp_all <;> omega

theorem take_ne_zero {i : Fin 3} (h0 : 0 ∉ a.all) (hne : a.queue i ≠ []) : (a.take i).1 ≠ 0 := by
  obtain ⟨t, ts, hq⟩ := List.exists_cons_of_ne_nil hne
  have htake : (a.take i).1 = t := by simp [take, hq]
  rw [htake]
  rintro rfl
  exact h0 (mem_all.mpr ⟨i, by simp [hq]⟩)

/-- NULL comes back exactly when there is nothing to return. -/
theorem dequeue_eq_zero (h0 : 0 ∉ a.all) : a.dequeue.1 = 0 ↔ ∀ i, a.queue i = [] := by
  rw [dequeue]
  split_ifs with hq0 hq1 hq2
  · exact ⟨fun h => absurd h (take_ne_zero h0 hq0), fun h => absurd (h 0) hq0⟩
  · exact ⟨fun h => absurd h (take_ne_zero h0 hq1), fun h => absurd (h 1) hq1⟩
  · exact ⟨fun h => absurd h (take_ne_zero h0 hq2), fun h => absurd (h 2) hq2⟩
  · simp_all [Fin.forall_fin_succ]

theorem dequeue_perm (h0 : 0 ∉ a.all) :
    a.all.Perm ([a.dequeue.1].filter (· ≠ 0) ++ a.dequeue.2.all) := by
  have htake : ∀ i, a.queue i ≠ [] →
      a.all.Perm ([(a.take i).1].filter (· ≠ 0) ++ (a.take i).2.all) := by
    intro i hne
    rw [List.filter_cons_of_pos (by simpa using take_ne_zero h0 hne)]
    exact take_perm hne
  rw [dequeue]
  split_ifs with hq0 hq1 hq2
  · exact htake 0 hq0
  · exact htake 1 hq1
  · exact htake 2 hq2
  · simp

theorem serve_perm (c : ReadyCall) (h0 : 0 ∉ a.all) :
    (a.all ++ c.entered).Perm ((a.serve c).1.filter (· ≠ 0) ++ (a.serve c).2.all) := by
  cases c with
  | enqueue t p =>
    refine List.perm_iff_count.mpr fun x => ?_
    have hq : (a.serve (.enqueue t p)).2.queue = update a.queue p (a.queue p ++ [t]) := rfl
    rw [ReadyCall.entered, List.count_append, List.count_append, count_all, count_all, hq]
    change _ = 0 + _
    fin_cases p <;> simp <;> omega
  | dequeue =>
    have hnone : ReadyCall.entered .dequeue = [] := rfl
    rw [hnone, List.append_nil]
    exact dequeue_perm h0
  | reset =>
    have hnone : ReadyCall.entered .reset = [] := rfl
    rw [hnone, List.append_nil]
    simp [serve, reset, all]

end ReadyLists

variable {s : SchedState} {a : ReadyLists} {c : ReadyCall}

theorem Threaded.nonnull (h : Threaded s a) : 0 ∉ a.all := by
  intro h0
  obtain ⟨i, hi⟩ := ReadyLists.mem_all.mp h0
  exact h.nonzero hi rfl

theorem Threaded.nodup_all (h : Threaded s a) : a.all.Nodup := by
  have hne : ∀ i j : Fin 3, i ≠ j → ∀ x ∈ a.queue i, ∀ y ∈ a.queue j, x ≠ y := by
    rintro i j hij x hx y hy rfl
    exact hij (h.queues.apart i j x hx hy)
  refine List.nodup_append.mpr ⟨List.nodup_append.mpr ⟨h.queues.nodup 0, h.queues.nodup 1,
    hne 0 1 (by decide)⟩, h.queues.nodup 2, fun x hx => ?_⟩
  rcases List.mem_append.mp hx with hx | hx
  · exact hne 0 2 (by decide) x hx
  · exact hne 1 2 (by decide) x hx

theorem Threaded.serve (h : Threaded s a) (hc : a.Fits s.alive c) :
    ∃ s', serve s c = .ok ((a.serve c).1, s') ∧ OnlyReady s s' ∧ Threaded s' (a.serve c).2 := by
  cases c with
  | enqueue t p =>
    obtain ⟨hal, h0, hlt, hfree⟩ := hc
    obtain ⟨s', hs', honly, h'⟩ := h.enqueueThread (p := p) hal h0 hlt hfree
    exact ⟨s', by rw [Sched.serve, hs']; rfl, honly, h'⟩
  | dequeue =>
    obtain ⟨s', hs', honly, h'⟩ := h.dequeueThread
    exact ⟨s', by rw [Sched.serve, hs']; rfl, honly, h'⟩
  | reset =>
    obtain ⟨s', hs', honly, h'⟩ := h.resetQueues
    exact ⟨s', by rw [Sched.serve, hs']; rfl, honly, h'⟩

theorem Threaded.serveAll {cs : List ReadyCall} (h : Threaded s a)
    (hcs : ReadyLists.Admits s.alive cs a) :
    ∃ s', serveAll cs s = .ok ((ReadyLists.serveAll cs a).1, s') ∧ OnlyReady s s' ∧
      Threaded s' (ReadyLists.serveAll cs a).2 ∧
      (a.all ++ cs.flatMap ReadyCall.entered).Perm
        ((ReadyLists.serveAll cs a).1.filter (· ≠ 0) ++ (ReadyLists.serveAll cs a).2.all) := by
  induction cs generalizing s a with
  | nil => exact ⟨s, rfl, rfl, h, by simp [ReadyLists.serveAll]⟩
  | cons c cs ih =>
    obtain ⟨s₁, hs₁, honly₁, h₁⟩ := h.serve hcs.1
    obtain ⟨s', hs', honly', h', hperm⟩ := ih h₁ (by rw [honly₁.alive_eq]; exact hcs.2)
    refine ⟨s', ?_, honly₁.trans honly', h', ?_⟩
    · rw [Sched.serveAll, hs₁, Outcome.ok_bind]
      simp only [hs', Outcome.ok_bind]
      rfl
    · rw [List.flatMap_cons, ReadyLists.serveAll, List.filter_append]
      rw [← List.append_assoc, List.append_assoc ((a.serve c).1.filter _)]
      refine ((ReadyLists.serve_perm c h.nonnull).append_right _).trans ?_
      rw [List.append_assoc]
      exact List.Perm.append_left _ hperm

/-- Whatever is enqueued, dequeued and reset from empty ready queues: every call
returns, the threads returned are those the three lists return, the pointers stand for
those lists afterwards (so a queued thread has the priority of its list), nothing else
of the scheduler changes, and no thread is lost or duplicated. -/
theorem ready_queues_are_lists (hs : ∀ i < 3, s.firstReady i = 0) (cs : List ReadyCall)
    (hcs : ReadyLists.Admits s.alive cs (.empty s.tcb)) :
    ∃ s' returned lists, ReadyLists.serveAll cs (.empty s.tcb) = (returned, lists) ∧
      serveAll cs s = .ok (returned, s') ∧ Threaded s' lists ∧ OnlyReady s s' ∧
      (lists.dequeue.1 = 0 ↔ ∀ i, lists.queue i = []) ∧ lists.all.Nodup ∧
      (cs.flatMap ReadyCall.entered).Perm (returned.filter (· ≠ 0) ++ lists.all) := by
  have h : Threaded s (.empty s.tcb) := by
    refine ⟨rfl, ⟨fun i => ⟨hs i i.isLt, by simp [ReadyLists.empty]⟩, fun _ => List.nodup_nil, ?_⟩, ?_,
      ?_, ?_, ?_⟩ <;> simp [ReadyLists.empty]
  obtain ⟨s', hs', honly, h', hperm⟩ := h.serveAll hcs
  refine ⟨s', _, _, rfl, hs', h', honly, ReadyLists.dequeue_eq_zero h'.nonnull, h'.nodup_all, ?_⟩
  simpa [ReadyLists.all, ReadyLists.empty] using hperm

/-- Three control blocks and nothing queued; the stale pointers are those of memory. -/
def threeThreads (s : SchedState) : SchedState := { s with alive := {16, 32, 48} }

/-- A thread of each level comes and one is taken; the reset puts the other two in order. -/
def sampleCalls : List ReadyCall :=
  [.enqueue 16 2, .enqueue 32 1, .dequeue, .enqueue 48 0, .reset, .dequeue, .dequeue, .dequeue]

theorem ready_queues_are_lists_sample :
    ∃ s', serveAll sampleCalls (threeThreads zeroState) = .ok ([32, 48, 16, 0], s') := by
  obtain ⟨s', r, a, ha, hs', -⟩ := ready_queues_are_lists (s := threeThreads zeroState)
    (fun _ _ => rfl) sampleCalls (by decide)
  have hr : (ReadyLists.serveAll sampleCalls (.empty zeroState.tcb)).1 = [32, 48, 16, 0] := by decide
  have hr' : r = [32, 48, 16, 0] := by
    rw [← hr]
    exact congrArg Prod.fst ha.symm
  exact ⟨s', hr' ▸ hs'⟩

end Runs

end KallarOS.Sched
