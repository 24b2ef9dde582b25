import KallarOS.HeapFrames
import KallarOS.HeapRequests
import KallarOS.TaskSwitch

namespace KallarOS.Heap
open ByteMemory Tilings KallarOS.Task Function

/-- `sizeof(thread_control_block_t)` on i386, where a `uint64_t` member is aligned
to four bytes. -/
def tcbSize : ℕ := 48

/-- The word members of a control block that thread creation writes. -/
inductive TcbWord where
  | esp | next | state | stackBase | timeUsed | id | savedInterruptState
deriving Repr, DecidableEq

/-- `esp0` and `cr3` stand at 4 and 8, `wake_time` at 28. -/
def TcbWord.offset : TcbWord → ℕ
  | .esp => 0
  | .next => 12
  | .state => 16
  | .stackBase => 20
  | .timeUsed => 24
  | .id => 36
  | .savedInterruptState => 40

inductive TcbByte where
  | priority | remainingTime
deriving Repr, DecidableEq

def TcbByte.offset : TcbByte → ℕ
  | .priority => 44
  | .remainingTime => 45

/-- The heap and the globals of thread creation: the counter `id` and the ready queues. -/
structure Threads where
  heap : HeapState
  id : ℕ
  first : Fin 3 → ℕ
  last : Fin 3 → ℕ

namespace Threads

def setWord (t : Threads) (tcb : ℕ) (f : TcbWord) (v : ℕ) : Threads :=
  { t with heap := { t.heap with mem := write32 t.heap.mem (tcb + f.offset) v } }

def setByte (t : Threads) (tcb : ℕ) (f : TcbByte) (v : ℕ) : Threads :=
  { t with heap := { t.heap with mem := update t.heap.mem (tcb + f.offset) (UInt8.ofNat v) } }

/-- `stack[0]` to `stack[6]` and the members of the control block. -/
def fillThread (t : Threads) (newThread stackBase : ℕ) (entryPoint threadExit : Word) : Threads :=
  -- the stack and `new_thread->esp`
  let t := { t with heap := { t.heap with
    mem := buildThread t.heap.mem newThread stackBase entryPoint threadExit } }
  let t := t.setWord newThread .stackBase stackBase
  -- THREAD_READY
  let t := t.setWord newThread .state 0
  let t := t.setWord newThread .timeUsed 0
  let t := t.setByte newThread .priority 0
  let t := { t with id := add32 t.id 1 }
  let t := t.setWord newThread .id t.id
  -- FIRST_LIMIT
  let t := t.setByte newThread .remainingTime 10
  t.setWord newThread .savedInterruptState 0x202

def enqueueThread (t : Threads) (thread : ℕ) (priority : Fin 3) : Threads :=
  let t := t.setWord thread .next 0
  let t := t.setByte thread .priority priority
  if t.first priority = 0 then
    { t with first := update t.first priority thread, last := update t.last priority thread }
  else
    let t := t.setWord (t.last priority) .next thread
    { t with last := update t.last priority thread }

/-- The two allocations, of the control block and of the stack. -/
def allocateThread (h : HeapState) : Outcome (ℕ × ℕ × HeapState) := do
  let (newThread, h) ← kmalloc h tcbSize
  let (stackBase, h) ← kmalloc h 4096
  return (newThread, stackBase, h)

def createKernelThread (t : Threads) (entryPoint threadExit : Word) : Outcome Threads := do
  let (newThread, stackBase, h) ← allocateThread t.heap
  let t := { t with heap := h }.fillThread newThread stackBase entryPoint threadExit
  return t.enqueueThread newThread ⟨0, by decide⟩

end Threads

/-- From `h` to `h'` the heap keeps its blocks, and no byte of a header changed. -/
structure Intact (h h' : HeapState) (start : ℕ) (bs : List Block) : Prop where
  rep : Rep h' start bs
  headers : ∀ b ∈ bs, ∀ i, b.addr ≤ i → i < b.addr + headerSize → h'.mem i = h.mem i

theorem Intact.trans {h h' h'' : HeapState} {start : ℕ} {bs : List Block} (hi : Intact h h' start bs)
    (hi' : Intact h' h'' start bs) : Intact h h'' start bs :=
  ⟨hi'.rep, fun b hb i hlo hhi => (hi'.headers b hb i hlo hhi).trans (hi.headers b hb i hlo hhi)⟩

/-- The bytes of the block at `q` for a request of `m` bytes, with its header and
what the rounding added. -/
def BlockByte (q m i : ℕ) : Prop :=
  q ≤ i + headerSize ∧ i + headerSize < q + (m + 8 + 15) / 16 * 16

section Frames

variable {P : ℕ → Prop} {h h' : HeapState} {a v start n p q m i : ℕ} {bs : List Block}

theorem Within.write32 (hP : ∀ i, a ≤ i → i < a + 4 → P i) :
    Within P h { h with mem := ByteMemory.write32 h.mem a v } := by
  intro i hi
  have hout : ¬(a ≤ i ∧ i < a + 4) := fun h => hi (hP i h.1 h.2)
  exact if_neg hout

theorem Within.writeByte {x : UInt8} (hP : P a) : Within P h { h with mem := update h.mem a x } := by
  intro i hi
  have hia : i ≠ a := by
    rintro rfl
    exact hi hP
  exact update_of_ne hia _ _

theorem Shape.blockByte (hs : Shape h start bs) (hq : Live bs q m) (hi : BlockByte q m i) :
    ∃ b ∈ bs, b.tag = some m ∧ b.addr + headerSize = q ∧ b.addr ≤ i ∧ i < b.addr + b.size := by
  obtain ⟨b, hb, htag, rfl⟩ := hq
  have hsize := (hs.fits b hb m htag).2.2
  obtain ⟨hlo, hhi⟩ := hi
  exact ⟨b, hb, htag, rfl, by omega, by omega⟩

/-- Stores behind the headers of blocks leave the heap intact. -/
theorem Rep.intact (hr : Rep h start bs) {mem : Mem} (hw : Within P h { h with mem := mem })
    (hP : ∀ i, P i → ∃ b ∈ bs, b.addr + headerSize ≤ i ∧ i < b.addr + b.size) :
    Intact h { h with mem := mem } start bs := by
  have hmiss : ∀ c ∈ bs, ∀ i, c.addr ≤ i → i < c.addr + headerSize → mem i = h.mem i := by
    intro c hc i hi hi'
    apply hw i
    intro hPi
    obtain ⟨b, hb, hbi, hbi'⟩ := hP i hPi
    have := hr.toShape.data_header hb hc hbi hbi'
    omega
  exact ⟨hr.overwrite hmiss, hmiss⟩

/-- A request for `n` bytes also owns what its block was rounded up by. -/
theorem Shape.data_byte (hs : Shape h start bs) (hp : Live bs p n) (hi : p ≤ i)
    (hi' : i + headerSize < p + (n + 8 + 15) / 16 * 16) :
    ∃ b ∈ bs, b.addr + headerSize ≤ i ∧ i < b.addr + b.size := by
  obtain ⟨b, hb, -, hbp, -, hend⟩ := hs.blockByte hp ⟨by omega, hi'⟩
  exact ⟨b, hb, by omega, hend⟩

/-- Blocks handed out at different addresses are apart, with their headers and rounding. -/
theorem Shape.blocks_apart (hs : Shape h start bs) (hp : Live bs p n) (hq : Live bs q m)
    (hne : p ≠ q) : p + (n + 8 + 15) / 16 * 16 ≤ q ∨ q + (m + 8 + 15) / 16 * 16 ≤ p := by
  obtain ⟨b, hb, htag, rfl⟩ := hp
  obtain ⟨c, hc, htag', rfl⟩ := hq
  have hsize := (hs.fits b hb n htag).2.2
  have hsize' := (hs.fits c hc m htag').2.2
  have hbc : b ≠ c := by
    rintro rfl
    exact hne rfl
  rcases hs.tiles.apart hb hc hbc with hap | hap <;> omega

theorem Rep.kmalloc_blockByte (hr : Rep h start bs) (hlt : n + 23 + 4095 < 2 ^ 32)
    (hok : Heap.kmalloc h n = .ok (p, h')) (hq : Live bs q m) (hi : BlockByte q m i) :
    h'.mem i = h.mem i := by
  obtain ⟨b, hb, htag, -, hlo, hhi⟩ := hr.toShape.blockByte hq hi
  have hbounds := (hr.tiles.mem_bounds hb).2.1
  apply hr.kmalloc_within hlt hok i
  rintro (hfree | hwm)
  · exact hr.toShape.not_freeByte hb htag hlo hhi hfree
  · omega

end Frames

namespace Threads

variable {t : Threads} {newThread stackBase start : ℕ} {bs : List Block} {entryPoint threadExit : Word}

theorem word_inside (f : TcbWord) : f.offset + 4 ≤ tcbSize := by
  cases f <;> decide

theorem byte_inside (f : TcbByte) : f.offset < tcbSize := by
  cases f <;> decide

theorem within_setWord {P : ℕ → Prop} {tcb v : ℕ} (f : TcbWord)
    (hP : ∀ i, tcb ≤ i → i < tcb + tcbSize → P i) : Within P t.heap (t.setWord tcb f v).heap := by
  have hin := word_inside f
  exact Within.write32 fun i hi hi' => hP i (by omega) (by omega)

theorem within_setByte {P : ℕ → Prop} {tcb v : ℕ} (f : TcbByte)
    (hP : ∀ i, tcb ≤ i → i < tcb + tcbSize → P i) : Within P t.heap (t.setByte tcb f v).heap := by
  have hin := byte_inside f
  exact Within.writeByte (hP _ (by omega) (by omega))

/-- The control block, and the stack up to the word above the requested bytes. -/
def Filled (newThread stackBase i : ℕ) : Prop :=
  (newThread ≤ i ∧ i < newThread + tcbSize) ∨ (stackBase ≤ i ∧ i < stackBase + 4096 + 4)

/-- The heap once the stack and `esp` are stored. -/
def built (h : HeapState) (newThread stackBase : ℕ) (entryPoint threadExit : Word) : HeapState :=
  { h with mem := buildThread h.mem newThread stackBase entryPoint threadExit }

theorem within_built {h : HeapState} :
    Within (Filled newThread stackBase) h (built h newThread stackBase entryPoint threadExit) := by
  intro i hi
  have htcb : i < newThread ∨ newThread + 4 ≤ i := by
    by_contra hin
    exact hi (.inl ⟨by omega, by unfold tcbSize; omega⟩)
  have hstack : i < stackBase ∨ stackBase + 4100 ≤ i := by
    by_contra hin
    exact hi (.inr ⟨by omega, by omega⟩)
  have hlen : (newStack entryPoint threadExit).length = 7 := rfl
  simp only [built, buildThread]
  rw [write32_apply_disjoint _ _ htcb]
  exact writeWords_outside _ (by unfold stackStart; omega)

/-- The other members go to the control block. -/
theorem within_members {P : ℕ → Prop} (hP : ∀ i, newThread ≤ i → i < newThread + tcbSize → P i) :
    Within P (built t.heap newThread stackBase entryPoint threadExit)
      (t.fillThread newThread stackBase entryPoint threadExit).heap := by
  have hbase := within_setWord (t := { t with
    heap := built t.heap newThread stackBase entryPoint threadExit }) (v := stackBase) .stackBase hP
  have hstate := hbase.trans (within_setWord (v := 0) .state hP)
  have htime := hstate.trans (within_setWord (v := 0) .timeUsed hP)
  have hpriority := htime.trans (within_setByte (v := 0) .priority hP)
  have hid := hpriority.trans (within_setWord (v := add32 t.id 1) .id hP)
  have hremaining := hid.trans (within_setByte (v := 10) .remainingTime hP)
  exact hremaining.trans (within_setWord .savedInterruptState hP)

theorem within_fillThread :
    Within (Filled newThread stackBase) t.heap
      (t.fillThread newThread stackBase entryPoint threadExit).heap :=
  within_built.trans (within_members fun _ hi hi' => .inl ⟨hi, hi'⟩)

/-- The control block, and the link of the thread that was last in its queue. -/
def Queued (t : Threads) (thread : ℕ) (priority : Fin 3) (i : ℕ) : Prop :=
  (thread ≤ i ∧ i < thread + tcbSize) ∨
    (t.first priority ≠ 0 ∧ t.last priority + 12 ≤ i ∧ i < t.last priority + 16)

theorem enqueueThread_heap (thread : ℕ) (priority : Fin 3) :
    (t.enqueueThread thread priority).heap =
      if t.first priority = 0 then
        ((t.setWord thread .next 0).setByte thread .priority priority).heap
      else
        (((t.setWord thread .next 0).setByte thread .priority priority).setWord
          (t.last priority) .next thread).heap :=
  apply_ite Threads.heap _ _ _

theorem enqueueThread_mem (thread : ℕ) (priority : Fin 3) :
    (t.enqueueThread thread priority).heap =
      { t.heap with mem := (t.enqueueThread thread priority).heap.mem } := by
  rw [enqueueThread_heap]
  split_ifs <;> rfl

theorem within_enqueueThread (thread : ℕ) (priority : Fin 3) :
    Within (Queued t thread priority) t.heap (t.enqueueThread thread priority).heap := by
  have htcb : ∀ i, thread ≤ i → i < thread + tcbSize → Queued t thread priority i :=
    fun i hi hi' => .inl ⟨hi, hi'⟩
  have hself : Within (Queued t thread priority) t.heap
      ((t.setWord thread .next 0).setByte thread .priority priority).heap :=
    (within_setWord .next htcb).trans (within_setByte .priority htcb)
  rw [enqueueThread_heap]
  split_ifs with h0
  · exact hself
  · apply hself.trans
    exact Within.write32 fun i hi hi' => .inr ⟨h0, hi, hi'⟩

/-- Both allocations are new blocks, and no byte of a block that was live changes. -/
theorem Rep.allocateThread {h : HeapState} (hr : Rep h start bs) :
    (∃ m, allocateThread h = .error (.panic m)) ∨
      ∃ newThread stackBase h' bs', allocateThread h = .ok (newThread, stackBase, h') ∧
        Rep h' start bs' ∧
        (∀ q m, Live bs' q m ↔
          (q = newThread ∧ m = tcbSize) ∨ (q = stackBase ∧ m = 4096) ∨ Live bs q m) ∧
        newThread ≠ stackBase ∧ (∀ q m, Live bs q m → newThread ≠ q ∧ stackBase ≠ q) ∧
        ∀ q m, Live bs q m → ∀ i, BlockByte q m i → h'.mem i = h.mem i := by
  rcases hr.kmalloc (n := tcbSize) (by decide) (by decide) with
    ⟨m, hm⟩ | ⟨newThread, h₁, bs₁, hok₁, hr₁, hnew₁, hlive₁⟩
  · exact .inl ⟨m, by rw [Threads.allocateThread, hm]; rfl⟩
  rcases hr₁.kmalloc (n := 4096) (by decide) (by decide) with
    ⟨m, hm⟩ | ⟨stackBase, h₂, bs₂, hok₂, hr₂, hnew₂, hlive₂⟩
  · exact .inl ⟨m, by rw [Threads.allocateThread, hok₁]; simp only [Outcome.ok_bind]; rw [hm]; rfl⟩
  refine .inr ⟨newThread, stackBase, h₂, bs₂, ?_, hr₂, fun q m => ?_, ?_, fun q m hq => ⟨?_, ?_⟩,
    fun q m hq i hi => ?_⟩
  · rw [Threads.allocateThread, hok₁]
    simp only [Outcome.ok_bind]
    rw [hok₂]
    rfl
  · rw [hlive₂, hlive₁]
    tauto
  · rintro rfl
    exact hnew₂ tcbSize ((hlive₁ _ _).mpr (.inl ⟨rfl, rfl⟩))
  · rintro rfl
    exact hnew₁ m hq
  · rintro rfl
    exact hnew₂ m ((hlive₁ _ m).mpr (.inr hq))
  · rw [hr₁.kmalloc_blockByte (by decide) hok₂ ((hlive₁ q m).mpr (.inr hq)) hi]
    exact hr.kmalloc_blockByte (by decide) hok₁ hq hi

@[simp] theorem last_fillThread :
    (t.fillThread newThread stackBase entryPoint threadExit).last = t.last := rfl

/-- `stack[0]` to `stack[6]` are in memory when the thread is filled in. -/
theorem fillThread_holds (hapart : stackBase + 4100 ≤ newThread ∨ newThread + tcbSize ≤ stackBase) :
    Holds (t.fillThread newThread stackBase entryPoint threadExit).heap.mem (stackStart stackBase)
      (newStack entryPoint threadExit) := by
  apply (writeWords_holds t.heap.mem (stackStart stackBase) (newStack entryPoint threadExit)).congr
  intro i hi hi'
  have hlen : (newStack entryPoint threadExit).length = 7 := rfl
  have htcb : ¬(newThread ≤ i ∧ i < newThread + tcbSize) := by
    unfold stackStart at *
    omega
  rw [within_members (P := fun i => newThread ≤ i ∧ i < newThread + tcbSize)
    (fun _ hi hi' => ⟨hi, hi'⟩) i htcb]
  exact write32_apply_disjoint _ _ (by unfold tcbSize at *; omega)

/-- The return address above the entry point is the word above the requested bytes. -/
theorem fillThread_top (hapart : stackBase + 4100 ≤ newThread ∨ newThread + tcbSize ≤ stackBase) :
    word (t.fillThread newThread stackBase entryPoint threadExit).heap.mem (stackBase + 4096) =
      threadExit := by
  have htop : stackStart stackBase + 4 * 6 = stackBase + 4096 := by
    unfold stackStart
    omega
  rw [← htop]
  exact fillThread_holds hapart 6 threadExit rfl

/-- The stores of `create_kernel_thread` stay behind the headers of its two blocks. -/
theorem filled_data {h : HeapState} (hr : Rep h start bs) (htcb : Live bs newThread tcbSize)
    (hstack : Live bs stackBase 4096) {i : ℕ} (hi : Filled newThread stackBase i) :
    ∃ b ∈ bs, b.addr + headerSize ≤ i ∧ i < b.addr + b.size := by
  rcases hi with ⟨hi, hi'⟩ | ⟨hi, hi'⟩
  · exact hr.toShape.data_byte htcb hi (by unfold headerSize tcbSize at *; omega)
  -- 4096 + 8 is rounded up to 4112, so more than four bytes are left above the request
  · exact hr.toShape.data_byte hstack hi (by unfold headerSize; omega)

theorem fillThread_intact (hr : Rep t.heap start bs) (htcb : Live bs newThread tcbSize)
    (hstack : Live bs stackBase 4096) :
    Intact t.heap (t.fillThread newThread stackBase entryPoint threadExit).heap start bs :=
  hr.intact within_fillThread fun _ hi => filled_data hr htcb hstack hi

/-- A byte of another block is not stored to. -/
theorem not_filled {h : HeapState} (hr : Rep h start bs) (htcb : Live bs newThread tcbSize)
    (hstack : Live bs stackBase 4096) {q m i : ℕ} (hq : Live bs q m) (hne : newThread ≠ q)
    (hne' : stackBase ≠ q) (hi : BlockByte q m i) : ¬Filled newThread stackBase i := by
  obtain ⟨hlo, hhi⟩ := hi
  have htcb := hr.toShape.blocks_apart htcb hq hne
  have hstack := hr.toShape.blocks_apart hstack hq hne'
  unfold headerSize tcbSize at *
  rintro (⟨hi, hi'⟩ | ⟨hi, hi'⟩)
  · unfold tcbSize at hi'
    omega
  · omega

/-- The links of `enqueue_thread` are members of two control blocks. -/
theorem enqueueThread_intact (hr : Rep t.heap start bs) (htcb : Live bs newThread tcbSize) {priority : Fin 3}
    (hlast : t.first priority ≠ 0 → Live bs (t.last priority) tcbSize) :
    Intact t.heap (t.enqueueThread newThread priority).heap start bs := by
  rw [enqueueThread_mem]
  apply hr.intact (P := Queued t newThread priority)
  · rw [← enqueueThread_mem]
    exact within_enqueueThread newThread priority
  · rintro i (⟨hi, hi'⟩ | ⟨h0, hi, hi'⟩)
    · exact hr.toShape.data_byte htcb hi (by unfold headerSize tcbSize at *; omega)
    · exact hr.toShape.data_byte (hlast h0) (by omega) (by unfold headerSize tcbSize; omega)

/-- In every heap that satisfies the representation invariant, `create_kernel_thread`
panics in an allocation or leaves the invariant true, with no header written after
the allocations and no byte of another live block changed, although `stack[6]` is
stored above the requested bytes. Queueing the thread then links it to the last
thread of its queue and touches nothing else. -/
theorem create_kernel_thread_keeps_heap (t : Threads) (entryPoint threadExit : Word) (start : ℕ)
    (bs : List Block) (hr : Rep t.heap start bs) :
    (∃ m, t.createKernelThread entryPoint threadExit = .error (.panic m)) ∨
      ∃ newThread stackBase h bs', allocateThread t.heap = .ok (newThread, stackBase, h) ∧
        Rep h start bs' ∧
        (∀ q m, Live bs' q m ↔
          (q = newThread ∧ m = tcbSize) ∨ (q = stackBase ∧ m = 4096) ∨ Live bs q m) ∧
        ∃ filled, filled = { t with heap := h }.fillThread newThread stackBase entryPoint threadExit ∧
          word filled.heap.mem (stackBase + 4096) = threadExit ∧
          Intact h filled.heap start bs' ∧
          (∀ q m, Live bs q m → ∀ i, BlockByte q m i → filled.heap.mem i = t.heap.mem i) ∧
          ∃ queued, queued = filled.enqueueThread newThread 0 ∧
            t.createKernelThread entryPoint threadExit = .ok queued ∧
            ((t.first 0 ≠ 0 → Live bs (t.last 0) tcbSize) →
              Intact h queued.heap start bs' ∧
              ∀ q m, Live bs q m → ∀ i, BlockByte q m i →
                (t.first 0 ≠ 0 → i < t.last 0 + 12 ∨ t.last 0 + 16 ≤ i) →
                queued.heap.mem i = t.heap.mem i) := by
  rcases Rep.allocateThread hr with
    ⟨m, hm⟩ | ⟨newThread, stackBase, h, bs', hok, hr', hlive, hpair, hne, hkept⟩
  · exact .inl ⟨m, by rw [createKernelThread, hm]; rfl⟩
  have htcb : Live bs' newThread tcbSize := (hlive _ _).mpr (.inl ⟨rfl, rfl⟩)
  have hstack : Live bs' stackBase 4096 := (hlive _ _).mpr (.inr (.inl ⟨rfl, rfl⟩))
  have hold : ∀ q m, Live bs q m → Live bs' q m := fun q m hq => (hlive q m).mpr (.inr (.inr hq))
  have hapart := hr'.toShape.blocks_apart hstack htcb hpair.symm
  obtain ⟨u, hu⟩ : ∃ u : Threads, u = { t with heap := h } := ⟨_, rfl⟩
  obtain rfl : h = u.heap := by rw [hu]
  have hfirst : u.first = t.first := by rw [hu]
  have hends : u.last = t.last := by rw [hu]
  have hfill : Within (Filled newThread stackBase) u.heap
      (u.fillThread newThread stackBase entryPoint threadExit).heap := within_fillThread
  have hintact : Intact u.heap (u.fillThread newThread stackBase entryPoint threadExit).heap start
      bs' := fillThread_intact hr' htcb hstack
  have hmiss : ∀ q m, Live bs q m → ∀ i, BlockByte q m i → ¬Filled newThread stackBase i := by
    intro q m hq i hi
    obtain ⟨hne₁, hne₂⟩ := hne q m hq
    exact not_filled hr' htcb hstack (hold q m hq) hne₁ hne₂ hi
  refine .inr ⟨newThread, stackBase, u.heap, bs', hok, hr', hlive,
    u.fillThread newThread stackBase entryPoint threadExit, by rw [← hu], ?_, hintact, ?_, _, rfl,
    ?_, fun hlast => ⟨?_, ?_⟩⟩
  · exact fillThread_top (by unfold tcbSize at *; omega)
  · intro q m hq i hi
    rw [hfill i (hmiss q m hq i hi)]
    exact hkept q m hq i hi
  · rw [createKernelThread, hok]
    simp only [Outcome.ok_bind, ← hu, Outcome.pure_eq_ok, Fin.zero_eta]
  · rw [← hfirst, ← hends] at hlast
    apply hintact.trans
    exact enqueueThread_intact hintact.rep htcb fun h0 => hold _ _ (hlast h0)
  · intro q m hq i hi hlink
    rw [← hfirst, ← hends] at hlink
    have hqueue := within_enqueueThread
      (t := u.fillThread newThread stackBase entryPoint threadExit) newThread 0
    rw [hqueue i ?_, hfill i (hmiss q m hq i hi)]
    · exact hkept q m hq i hi
    · rintro (hown | ⟨h0, hlo, hhi⟩)
      · exact hmiss q m hq i hi (.inl hown)
      · have hout := hlink h0
        rw [last_fillThread] at hlo hhi
        omega

/-- Two pages of free memory. -/
def roomyHeap : HeapState where
  mem := write32 (fun _ => 0) 4096 8193
  freeListHead := 4096
  heapWatermark := 12288
  paging := rootPaging

theorem roomyHeap_rep : Rep roomyHeap 4096 [⟨4096, 8192, none⟩] :=
  .oneFree (by decide) (by decide) (by decide) (by decide) (by decide) rfl rfl
    (read32_write32_self _ _ (by decide)) (read32_write32_disjoint _ _ (by decide))
    rootPaging_growable

/-- The first thread is made before any is ready. -/
def roomyThreads : Threads := ⟨roomyHeap, 1, fun _ => 0, fun _ => 0⟩

theorem create_kernel_thread_keeps_heap_sample :
    ∃ h bs' t', allocateThread roomyHeap = .ok (4104, 4168, h) ∧
      roomyThreads.createKernelThread 0x101000 0x102000 = .ok t' ∧ Intact h t'.heap 4096 bs' := by
  have haddr : (allocateThread roomyHeap).toOption.map (fun r => (r.1, r.2.1)) =
      some (4104, 4168) := by decide
  rcases create_kernel_thread_keeps_heap roomyThreads 0x101000 0x102000 4096
      [⟨4096, 8192, none⟩] roomyHeap_rep with
    ⟨m, hm⟩ | ⟨newThread, stackBase, h, bs', hok, -, -, filled, -, -, -, -, t', -, hcreate, hqueue⟩
  · have hreturns : (roomyThreads.createKernelThread 0x101000 0x102000).toBool = true := by decide
    rw [hm] at hreturns
    cases hreturns
  · have hok' : allocateThread roomyHeap = .ok (newThread, stackBase, h) := hok
    rw [hok'] at haddr
    cases haddr
    exact ⟨h, bs', t', hok, hcreate, (hqueue fun h0 => absurd rfl h0).1⟩

end Threads

end KallarOS.Heap
