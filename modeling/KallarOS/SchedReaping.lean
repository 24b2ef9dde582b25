import KallarOS.SchedLocks
import KallarOS.SchedRuns

namespace KallarOS.Sched
open Function Chains Relation

namespace Plan

variable {a : Plan} {t m : ℕ} {p : Place} {f : Thread → Thread} {e : Event}

theorem queue_blockOn_of_ne {p' : Place} (hp : ∀ i, p ≠ .ready i) (hne : p ≠ p') :
    (a.blockOn p' f).queue p = a.queue p := by
  rw [blockOn, queue_reschedule hp]
  exact update_of_ne hne _ _

theorem queue_promote_of_ne {p' : Place} (hp : ∀ i, p ≠ .ready i) (hne : p ≠ p') :
    (a.promote p' t).queue p = a.queue p := by
  rw [promote, queue_enqueueThread_of_ne (hp _), queue_remove_of_ne hne]
  rfl

/-- A queue that is neither a ready queue nor the wait queue of a lock. -/
def Aside (p : Place) : Prop := p = .sleeping ∨ p = .terminated ∨ p = .detached

/-- The operation moves no thread into or out of such a queue. -/
def Spares (p : Place) : Event → Prop
  | .tick => p ≠ .sleeping
  | .threadSleep _ => p ≠ .sleeping
  | .threadExit => p ≠ .terminated
  | .detachTerminated => p ≠ .terminated ∧ p ≠ .detached
  | .reapThread => p ≠ .detached
  | _ => True

theorem Resting.queue_spared (h : a.Resting) (hp : Aside p) (he : Spares p e) :
    (a.step e).queue p = a.queue p := by
  have hready : ∀ i, p ≠ .ready i := by rcases hp with rfl | rfl | rfl <;> simp
  have hmutex : ∀ m, p ≠ .mutex m := by rcases hp with rfl | rfl | rfl <;> simp
  have hsem : ∀ m, p ≠ .semaphore m := by rcases hp with rfl | rfl | rfl <;> simp
  cases e with
  | createKernelThread t => exact queue_enqueueThread_of_ne (hready 0)
  | createMutex m => rfl
  | createSemaphore m maxCount => rfl
  | tick => exact queue_apicTimerHandler h.toUnlocked hready he
  | threadSleep d =>
    rw [Plan.step, queue_unlockScheduler, enterSleep_eq h.toUnlocked]
    exact queue_blockOn_of_ne hready he
  | threadExit =>
    rw [Plan.step, queue_unlockScheduler, enterExit_eq h.toUnlocked]
    exact queue_blockOn_of_ne hready he
  | acquireMutex m =>
    rw [Plan.step, queue_unlockScheduler, enterAcquireMutex_eq h.toUnlocked]
    split_ifs
    · rfl
    · exact queue_blockOn_of_ne hready (hmutex m)
  | acquireSemaphore m =>
    rw [Plan.step, queue_unlockScheduler, enterAcquireSemaphore_eq h.toUnlocked]
    split_ifs
    · rfl
    · exact queue_blockOn_of_ne hready (hsem m)
  | releaseMutex m =>
    rw [Plan.step, queue_unlockScheduler]
    cases hq : a.queue (.mutex m) with
    | nil =>
      rw [enterReleaseMutex_nil h.toUnlocked hq]
      rfl
    | cons t ts =>
      rw [enterReleaseMutex_cons h.toUnlocked hq, queue_reschedule hready]
      exact queue_promote_of_ne hready (hmutex m)
  | releaseSemaphore m =>
    rw [Plan.step, queue_unlockScheduler]
    cases hq : a.queue (.semaphore m) with
    | nil =>
      rw [enterReleaseSemaphore_nil h.toUnlocked hq]
      split_ifs <;> rfl
    | cons t ts =>
      rw [enterReleaseSemaphore_cons h.toUnlocked hq, queue_reschedule hready]
      exact queue_promote_of_ne hready (hsem m)
  | detachTerminated => exact (update_of_ne he.1 _ _).trans (update_of_ne he.2 _ _)
  | reapThread => exact queue_remove_of_ne he

/-- Threads come to the terminated queue by `thread_exit` and leave it with the cleaner. -/
theorem Resting.queue_step (h : a.Resting) (hp : p = .terminated ∨ p = .detached)
    (hexit : e ≠ .threadExit) (hdetach : e ≠ .detachTerminated) (hreap : e ≠ .reapThread) :
    (a.step e).queue p = a.queue p := by
  apply h.queue_spared (.inr hp)
  have hsleep : p ≠ .sleeping := by rcases hp with rfl | rfl <;> simp
  cases e with
  | tick => exact hsleep
  | threadSleep d => exact hsleep
  | threadExit => exact absurd rfl hexit
  | detachTerminated => exact absurd rfl hdetach
  | reapThread => exact absurd rfl hreap
  | _ => trivial

theorem alive_unlockScheduler (a : Plan) : a.unlockScheduler.alive = a.alive := rfl

theorem alive_blockOn (a : Plan) (p : Place) (f : Thread → Thread) : (a.blockOn p f).alive = a.alive :=
  (sameObjects_blockOn a p f).alive

theorem Resting.alive_step (h : a.Resting) (hcreate : ∀ t, e ≠ .createKernelThread t)
    (hreap : e ≠ .reapThread) : (a.step e).alive = a.alive := by
  cases e with
  | createKernelThread t => exact absurd rfl (hcreate t)
  | createMutex m => rfl
  | createSemaphore m maxCount => rfl
  | tick => exact (sameObjects_apicTimerHandler h.toUnlocked).alive
  | threadSleep d =>
    rw [Plan.step, enterSleep_eq h.toUnlocked, alive_unlockScheduler, alive_blockOn]
  | threadExit =>
    rw [Plan.step, enterExit_eq h.toUnlocked, alive_unlockScheduler, alive_blockOn]
  | acquireMutex m =>
    rw [Plan.step, enterAcquireMutex_eq h.toUnlocked]
    split_ifs
    · rfl
    · rw [alive_unlockScheduler, alive_blockOn]
  | acquireSemaphore m =>
    rw [Plan.step, enterAcquireSemaphore_eq h.toUnlocked]
    split_ifs
    · rfl
    · rw [alive_unlockScheduler, alive_blockOn]
  | releaseMutex m =>
    rw [Plan.step]
    cases hq : a.queue (.mutex m) with
    | nil =>
      rw [enterReleaseMutex_nil h.toUnlocked hq]
      rfl
    | cons t ts =>
      rw [enterReleaseMutex_cons h.toUnlocked hq, alive_unlockScheduler,
        (sameObjects_reschedule _).alive]
      rfl
  | releaseSemaphore m =>
    rw [Plan.step]
    cases hq : a.queue (.semaphore m) with
    | nil =>
      rw [enterReleaseSemaphore_nil h.toUnlocked hq]
      split_ifs <;> rfl
    | cons t ts =>
      rw [enterReleaseSemaphore_cons h.toUnlocked hq, alive_unlockScheduler,
        (sameObjects_reschedule _).alive]
      rfl
  | detachTerminated => rfl
  | reapThread => exact absurd rfl hreap

/-- Waiting for the cleaner, or already in its hands. -/
def Dead (a : Plan) (t : ℕ) : Prop := t ∈ a.queue .terminated ∨ t ∈ a.queue .detached

theorem Resting.dead_iff (h : a.Resting) (he : a.Allowed e) (hreap : e ≠ .reapThread) :
    (a.step e).Dead t ↔ a.Dead t ∨ e = .threadExit ∧ t = a.currentThread := by
  by_cases hexit : e = .threadExit
  · subst hexit
    have hq : (a.step .threadExit).queue =
        (a.blockOn .terminated fun t => { t with state := .terminated }).queue := by
      rw [Plan.step, queue_unlockScheduler, enterExit_eq h.toUnlocked]
    have hterm : t ∈ (a.step .threadExit).queue .terminated ↔
        t ∈ a.queue .terminated ∨ t = a.currentThread := by
      rw [hq, Plan.blockOn, queue_reschedule (by simp), mem_push, and_iff_left rfl]
      rfl
    have hdet : (a.step .threadExit).queue .detached = a.queue .detached := by
      rw [hq, queue_blockOn_of_ne (by simp) (by simp)]
    rw [Dead, Dead, hterm, hdet, and_iff_right rfl, or_right_comm]
  · rw [or_iff_left fun hc => hexit hc.1]
    by_cases hdetach : e = .detachTerminated
    · subst hdetach
      have hq : ∀ p, (a.step .detachTerminated).queue p = a.detach.queue p := fun _ => rfl
      have hnil : a.queue .detached = [] := he.fits
      rw [Dead, Dead, hq, hq, mem_detach hnil, mem_detach hnil, hnil]
      simp
    · rw [Dead, Dead, h.queue_step (.inl rfl) hexit hdetach hreap,
        h.queue_step (.inr rfl) hexit hdetach hreap]

/-- A reschedule moves no dead thread. -/
theorem dead_reschedule {x : ℕ} : a.reschedule.Dead x ↔ a.Dead x := by
  rw [Dead, queue_reschedule (by simp), queue_reschedule (by simp), Dead]

/-- A round of the cleaner takes the first of its threads only. -/
theorem dead_reapThread {ts : List ℕ} {x : ℕ} (hq : a.queue .detached = x :: ts) :
    ((a.step .reapThread).Dead t → a.Dead t) ∧ (t ≠ x → a.Dead t → (a.step .reapThread).Dead t) := by
  have hdet : (a.step .reapThread).queue .detached = ts := by
    simp [Plan.step, Plan.reapThread, Plan.remove, hq]
  have hterm : (a.step .reapThread).queue .terminated = a.queue .terminated := by
    simp [Plan.step, Plan.reapThread, Plan.remove]
  rw [Dead, Dead, hdet, hterm, hq, List.mem_cons]
  exact ⟨fun ht => ht.imp_right .inr, fun hne ht => ht.imp_right fun hm => hm.resolve_left hne⟩

theorem Resting.dead_step (h : a.Resting) (he : a.Allowed e) (ht : (a.step e).Dead t) :
    a.Dead t ∨ e = .threadExit ∧ t = a.currentThread := by
  by_cases hreap : e = .reapThread
  · subst hreap
    obtain ⟨x, ts, hq⟩ := List.exists_cons_of_ne_nil he.fits
    exact .inl ((dead_reapThread hq).1 ht)
  · exact (h.dead_iff he hreap).mp ht

end Plan

section Scrubbing

/-- An address no control block has. -/
def poison : ℕ := 2 ^ 32

def forget (t v : ℕ) : ℕ := if v = t then poison else v

theorem forget_of_ne {t v : ℕ} (h : v ≠ t) : forget t v = v := if_neg h

/-- Every link and queue pointer to `t` is overwritten, and the link in `t` itself. An
access through one of them would fault from here on. (`owner_thread` is compared with
NULL only, and `current_thread` and `idle_thread` are never freed.) -/
def SchedState.scrub (s : SchedState) (t : ℕ) : SchedState :=
  { s with
    next := fun x => if x = t then poison else forget t (s.next x)
    firstReady := fun i => forget t (s.firstReady i)
    lastReady := fun i => forget t (s.lastReady i)
    sleepingThreadQueue := forget t s.sleepingThreadQueue
    terminatedThreadQueue := forget t s.terminatedThreadQueue
    detachedQueue := forget t s.detachedQueue
    mutexFirst := fun m => forget t (s.mutexFirst m)
    mutexLast := fun m => forget t (s.mutexLast m)
    semFirst := fun m => forget t (s.semFirst m)
    semLast := fun m => forget t (s.semLast m) }

variable {s : SchedState} {a : Plan} {t : ℕ}

theorem head_scrub (s : SchedState) (t : ℕ) (p : Place) :
    (s.scrub t).head p = forget t (s.head p) := by
  cases p <;> rfl

theorem last_scrub (s : SchedState) (t : ℕ) (p : Place) :
    (s.scrub t).last p = (s.last p).map (forget t) := by
  cases p <;> rfl

/-- A thread in no queue may be forgotten: what still points to it is not read. -/
theorem Rep.scrub (h : Rep s a) (h0 : t ≠ 0) (ht : ∀ p, t ∉ a.queue p) : Rep (s.scrub t) a := by
  have hhead : ∀ p, (s.scrub t).head p = s.head p := by
    intro p
    rw [head_scrub, forget_of_ne]
    rw [h.queues.head_eq]
    cases hq : a.queue p with
    | nil => exact h0.symm
    | cons x xs =>
      rintro rfl
      exact ht p (by simp [hq])
  have hnext : ∀ p, ∀ x ∈ a.queue p, (s.scrub t).next x = s.next x := by
    intro p x hx
    have hxt : x ≠ t := by
      rintro rfl
      exact ht p hx
    obtain ⟨ys, zs, hq⟩ := List.append_of_mem hx
    have hlink := h.queues.next_eq hq
    have hlt : s.next x ≠ t := by
      rw [hlink]
      cases hz : zs with
      | nil => exact h0.symm
      | cons z zs' =>
        rintro rfl
        exact ht p (by simp [hq, hz])
    simp only [SchedState.scrub, if_neg hxt, forget_of_ne hlt]
  refine { h with queues := ?_, last := ?_ }
  · have hheads : (s.scrub t).head = s.head := funext hhead
    rw [hheads]
    exact h.queues.congr hnext
  · intro p l hl x hx
    rw [last_scrub, Option.map_eq_some_iff] at hl
    obtain ⟨l', hl', rfl⟩ := hl
    have hlast := h.last p l' hl' x hx
    rw [hlast, forget_of_ne]
    rintro rfl
    exact ht p (List.mem_of_mem_getLast? hx)

end Scrubbing

/-- The two blocks `create_kernel_thread` takes from `kmalloc`. -/
structure Birth where
  thread : ℕ
  stack : ℕ

/-- One `kfree` of the cleaner: the thread's number in the order of creation, the block,
and the state the control block showed. -/
structure Freed where
  number : Option ℕ
  address : ℕ
  state : ThreadState

/-- The scheduler with the `stack_base` fields and the blocks that are allocated.
`shadow` runs beside the code with every pointer to a freed control block overwritten;
`births`, `number` and `freed` record the threads made with `create_kernel_thread`. -/
structure Reaper where
  code : SchedState
  shadow : SchedState
  stackBase : ℕ → ℕ
  blocks : Finset ℕ
  births : List Birth
  number : ℕ → Option ℕ
  freed : List Freed

/-- What the threads do, the cleaner's rounds included. -/
inductive Action where
  | create (thread stack : ℕ)
  | reap
  | call (e : Event)

namespace Reaper

variable (r : Reaper)

/-- A block that is not allocated cannot be freed. -/
def kfree (address : ℕ) : Outcome Reaper :=
  if address ∈ r.blocks then .ok { r with blocks := r.blocks.erase address }
  else .error (.fault address)

def both (f : SchedState → Outcome SchedState) : Outcome Reaper := do
  let code ← f r.code
  let shadow ← f r.shadow
  return { r with code := code, shadow := shadow }

def create (thread stack : ℕ) : Outcome Reaper := do
  let r ← r.both fun s => createKernelThread s thread
  return { r with
    stackBase := update r.stackBase thread stack
    blocks := insert stack (insert thread r.blocks)
    births := r.births ++ [⟨thread, stack⟩]
    number := update r.number thread (some r.births.length) }

/-- One round of the cleaner: both blocks of the first thread of its list. -/
def reap : Outcome Reaper := do
  let thread := r.code.detachedQueue
  let t ← r.code.load thread
  let r ← r.kfree (r.stackBase thread)
  let r ← r.kfree thread
  let r ← r.both reapThread
  return { r with
    shadow := r.shadow.scrub thread
    freed := ⟨r.number thread, thread, t.state⟩ ::
      ⟨r.number thread, r.stackBase thread, t.state⟩ :: r.freed }

def exec : Action → Outcome Reaper
  | .create thread stack => r.create thread stack
  | .reap => r.reap
  | .call e => r.both fun s => Sched.exec s e

/-- New blocks are at addresses `kmalloc` can return, and only threads made with
`create_kernel_thread` exit. -/
def Allowed : Action → Prop
  | .create thread stack => (Event.createKernelThread thread).Allowed r.code ∧
      thread ∉ r.blocks ∧ stack ∉ r.blocks ∧ stack ≠ thread
  | .reap => Event.reapThread.Allowed r.code
  | .call e => e.Allowed r.code ∧ (∀ t, e ≠ .createKernelThread t) ∧ e ≠ .reapThread ∧
      (e = .threadExit → r.number r.code.currentThread ≠ none)

def Step (r r' : Reaper) : Prop := ∃ x, r.Allowed x ∧ r.exec x = .ok r'

end Reaper

/-- What holds between two actions. -/
structure Reaper.Inv (r : Reaper) (a : Plan) : Prop where
  code : Steady r.code a
  shadow : Steady r.shadow a
  allocated : ∀ t ∈ a.alive, t ∈ r.blocks
  born : ∀ t ∈ a.alive, ∀ n, r.number t = some n → r.births[n]? = some ⟨t, r.stackBase t⟩
  stack : ∀ t ∈ a.alive, r.number t ≠ none → r.stackBase t ∈ r.blocks ∧ r.stackBase t ∉ a.alive
  apart : ∀ t ∈ a.alive, ∀ t' ∈ a.alive, r.number t ≠ none → r.number t' ≠ none →
    r.stackBase t = r.stackBase t' → t = t'
  dead : ∀ t, a.Dead t → r.number t ≠ none
  terminated : ∀ f ∈ r.freed, f.state = .terminated
  owned : ∀ f ∈ r.freed, ∃ n b, f.number = some n ∧ r.births[n]? = some b ∧
    (f.address = b.thread ∨ f.address = b.stack)
  gone : ∀ f ∈ r.freed, ∀ t ∈ a.alive, r.number t ≠ f.number
  once : (r.freed.map fun f => (f.number, f.address)).Nodup

namespace Reaper

variable {r r' : Reaper} {a : Plan} {e : Event} {thread stackAddr : ℕ}

/-- The code and its shadow make the same step. -/
theorem both_exec (hcode : Steady r.code a) (hshadow : Steady r.shadow a) (hall : e.Allowed r.code) :
    ∃ code shadow, (r.both fun s => Sched.exec s e) =
        .ok { r with code := code, shadow := shadow } ∧
      Steady code (a.step e) ∧ Steady shadow (a.step e) := by
  obtain ⟨code, hrun, hsteady⟩ := hcode.exec hall
  obtain ⟨shadow, hrun', hsteady'⟩ :=
    hshadow.exec (hshadow.rep.allowed.mpr (hcode.rep.allowed.mp hall))
  refine ⟨code, shadow, ?_, hsteady, hsteady'⟩
  rw [both, hrun, hrun']
  rfl

/-- A scheduler operation that makes and frees no thread. -/
theorem Inv.call (h : r.Inv a) (he : r.Allowed (.call e)) :
    ∃ code shadow, r.exec (.call e) = .ok { r with code := code, shadow := shadow } ∧
      Inv { r with code := code, shadow := shadow } (a.step e) := by
  obtain ⟨hall, hcreate, hreap, hexit⟩ := he
  have ha := h.code.rep.allowed.mp hall
  obtain ⟨code, shadow, hboth, hsteady, hsteady'⟩ := both_exec h.code h.shadow hall
  have halive := h.code.resting.alive_step hcreate hreap
  refine ⟨code, shadow, hboth, hsteady, hsteady', ?_, ?_, ?_, ?_, ?_, h.terminated, h.owned, ?_,
    h.once⟩
  · rw [halive]
    exact h.allocated
  · rw [halive]
    exact h.born
  · rw [halive]
    exact h.stack
  · rw [halive]
    exact h.apart
  · intro t ht
    rcases h.code.resting.dead_step ha ht with hd | ⟨rfl, rfl⟩
    · exact h.dead t hd
    · have hcur := h.code.rep.current_eq
      rw [← hcur]
      exact hexit rfl
  · rw [halive]
    exact h.gone

/-- The bookkeeping of `create`. -/
def withBirth (r : Reaper) (code shadow : SchedState) (thread stack : ℕ) : Reaper where
  code := code
  shadow := shadow
  stackBase := update r.stackBase thread stack
  blocks := insert stack (insert thread r.blocks)
  births := r.births ++ [⟨thread, stack⟩]
  number := update r.number thread (some r.births.length)
  freed := r.freed

theorem Inv.create (h : r.Inv a) (he : r.Allowed (.create thread stackAddr)) :
    ∃ code shadow, r.exec (.create thread stackAddr) = .ok (r.withBirth code shadow thread stackAddr) ∧
      (r.withBirth code shadow thread stackAddr).Inv (a.step (.createKernelThread thread)) := by
  obtain ⟨hall, hthread, hstack, hne⟩ := he
  have ha := h.code.rep.allowed.mp hall
  obtain ⟨code, shadow, hboth, hsteady, hsteady'⟩ := both_exec h.code h.shadow hall
  have hnew : ∀ {t}, t ∈ a.alive → t ≠ thread := by
    rintro t ht rfl
    exact ha.fits.2.2 ht
  have hmem : ∀ {t}, t ∈ (a.step (.createKernelThread thread)).alive → t = thread ∨ t ∈ a.alive :=
    fun ht => Finset.mem_insert.mp ht
  have hbirth : ∀ {n : ℕ} {b : Birth}, r.births[n]? = some b →
      (r.births ++ [⟨thread, stackAddr⟩])[n]? = some b := by
    intro n b hn
    have hlt := (List.getElem?_eq_some_iff.mp hn).1
    rw [List.getElem?_append_left hlt, hn]
  -- the new blocks are none of the old ones
  have hblock : ∀ {x}, x ∈ r.blocks → x ≠ thread ∧ x ≠ stackAddr := by
    intro x hx
    refine ⟨?_, ?_⟩ <;> rintro rfl <;> contradiction
  refine ⟨code, shadow, ?_, ?_⟩
  · change (r.both fun s => Sched.exec s (.createKernelThread thread)) >>= _ = _
    rw [hboth]
    rfl
  refine ⟨hsteady, hsteady', ?_, ?_, ?_, ?_, ?_, h.terminated, ?_, ?_, h.once⟩ <;> dsimp only [withBirth]
  · intro t ht
    rcases hmem ht with rfl | ht
    · simp
    · simp [h.allocated t ht]
  · intro t ht n hn
    rcases hmem ht with rfl | ht
    · rw [update_self] at hn
      cases hn
      simp
    · rw [update_of_ne (hnew ht)] at hn ⊢
      exact hbirth (h.born t ht n hn)
  · intro t ht hn
    rcases hmem ht with rfl | ht
    · rw [update_self]
      refine ⟨by simp, fun hs => ?_⟩
      rcases hmem hs with hs | hs
      · exact hne hs
      · exact hstack (h.allocated _ hs)
    · rw [update_of_ne (hnew ht)] at hn ⊢
      obtain ⟨hin, hout⟩ := h.stack t ht hn
      refine ⟨by simp [hin], fun hs => ?_⟩
      rcases hmem hs with hs | hs
      · exact (hblock hin).1 hs
      · exact hout hs
  · intro t ht t' ht' hn hn' hs
    rcases hmem ht with rfl | hto <;> rcases hmem ht' with rfl | hto'
    · rfl
    · rw [update_of_ne (hnew hto')] at hn' hs
      rw [update_self] at hs
      exact absurd hs.symm (hblock (h.stack t' hto' hn').1).2
    · rw [update_of_ne (hnew hto)] at hn hs
      rw [update_self] at hs
      exact absurd hs (hblock (h.stack t hto hn).1).2
    · rw [update_of_ne (hnew hto)] at hn hs
      rw [update_of_ne (hnew hto')] at hn' hs
      exact h.apart t hto t' hto' hn hn' hs
  · intro t ht
    rcases h.code.resting.dead_step ha ht with hd | ⟨hexit, -⟩
    · have hal : t ∈ a.alive := hd.elim (h.code.resting.alive _ t) (h.code.resting.alive _ t)
      rw [update_of_ne (hnew hal)]
      exact h.dead t hd
    · cases hexit
  · intro f hf
    obtain ⟨n, b, hn, hb, haddr⟩ := h.owned f hf
    exact ⟨n, b, hn, hbirth hb, haddr⟩
  · intro f hf t ht
    rcases hmem ht with rfl | ht
    · obtain ⟨n, b, hn, hb, -⟩ := h.owned f hf
      have hlt := (List.getElem?_eq_some_iff.mp hb).1
      rw [update_self, hn]
      intro hc
      have := Option.some.inj hc
      omega
    · rw [update_of_ne (hnew ht)]
      exact h.gone f hf t ht

/-- Nothing was freed of a thread that is alive. -/
theorem Inv.not_freed {t : ℕ} (h : r.Inv a) (ht : t ∈ a.alive) (address : ℕ) :
    (r.number t, address) ∉ r.freed.map fun f => (f.number, f.address) := by
  intro hm
  obtain ⟨f, hf, he⟩ := List.mem_map.mp hm
  exact h.gone f hf t ht (congrArg Prod.fst he).symm

/-- The round returns, since both blocks of the thread are allocated. -/
theorem Inv.reap_exec {t : ℕ} {ts : List ℕ} (h : r.Inv a) (he : r.Allowed .reap)
    (hq : a.queue .detached = t :: ts) : ∃ code shadow,
    r.exec .reap = .ok { r with
      code := code
      shadow := shadow.scrub t
      blocks := (r.blocks.erase (r.stackBase t)).erase t
      freed := ⟨r.number t, t, .terminated⟩ :: ⟨r.number t, r.stackBase t, .terminated⟩ ::
        r.freed } ∧
      Steady code (a.step .reapThread) ∧ Steady shadow (a.step .reapThread) := by
  have hmem : t ∈ a.queue .detached := by simp [hq]
  have halive := h.code.resting.alive _ t hmem
  have hhead : r.code.detachedQueue = t := h.code.rep.queues.head_of_cons (i := .detached) hq
  have hstate : (a.tcb t).state = .terminated := h.code.resting.state .detached t hmem
  obtain ⟨hstack, hout⟩ := h.stack t halive (h.dead t (.inr hmem))
  have hsecond : t ∈ r.blocks.erase (r.stackBase t) :=
    Finset.mem_erase.mpr ⟨fun hc => hout (hc ▸ halive), h.allocated t halive⟩
  obtain ⟨code, shadow, hboth, hsteady, hsteady'⟩ := both_exec
    (r := { r with blocks := (r.blocks.erase (r.stackBase t)).erase t }) h.code h.shadow he
  refine ⟨code, shadow, ?_, hsteady, hsteady'⟩
  simp only [Reaper.exec, Reaper.reap, hhead, h.code.rep.load halive, Outcome.ok_bind, kfree,
    if_pos hstack, if_pos hsecond, hstate]
  change (both { r with blocks := (r.blocks.erase (r.stackBase t)).erase t }
    fun s => Sched.exec s .reapThread) >>= _ = _
  rw [hboth]
  rfl

/-- One round of the cleaner. -/
theorem Inv.reap (h : r.Inv a) (he : r.Allowed .reap) :
    ∃ r', r.exec .reap = .ok r' ∧ r'.Inv (a.step .reapThread) := by
  have hrest := h.code.resting
  have ha := h.code.rep.allowed.mp he
  obtain ⟨t, ts, hq⟩ := List.exists_cons_of_ne_nil ha.fits
  have hmem : t ∈ a.queue .detached := by simp [hq]
  have halive := hrest.alive _ t hmem
  have hnum := h.dead t (.inr hmem)
  obtain ⟨n, hn⟩ := Option.ne_none_iff_exists'.mp hnum
  obtain ⟨-, hout⟩ := h.stack t halive hnum
  have hne : t ≠ r.stackBase t := fun hc => hout (hc ▸ halive)
  have hstep : a.step .reapThread = { a.remove .detached t with alive := a.alive.erase t } := by
    rw [Plan.step, Plan.reapThread, hq, List.headD_cons]
  have hold : ∀ {x}, x ∈ (a.step .reapThread).alive → x ≠ t ∧ x ∈ a.alive := by
    intro x hx
    rw [hstep] at hx
    exact Finset.mem_erase.mp hx
  have hgone : ∀ p, t ∉ (a.step .reapThread).queue p := by
    rw [hstep]
    exact hrest.toBase.notMem_remove hmem
  have h0 : t ≠ 0 := fun h0 => hrest.nonnull (h0 ▸ halive)
  have hentry : ∀ f ∈ ([⟨r.number t, t, .terminated⟩, ⟨r.number t, r.stackBase t, .terminated⟩] :
      List Freed), f.number = some n ∧ f.state = .terminated ∧
        (f.address = t ∨ f.address = r.stackBase t) := by
    simp [hn]
  obtain ⟨code, shadow, hrun, hsteady, hsteady'⟩ := h.reap_exec he hq
  refine ⟨_, hrun, hsteady, ⟨hsteady'.rep.scrub h0 hgone, hsteady'.resting⟩, ?_, ?_, ?_, ?_, ?_, ?_,
    ?_, ?_, ?_⟩
  · intro x hx
    obtain ⟨hxt, hx⟩ := hold hx
    refine Finset.mem_erase.mpr ⟨hxt, Finset.mem_erase.mpr ⟨?_, h.allocated x hx⟩⟩
    rintro rfl
    exact hout hx
  · intro x hx
    exact h.born x (hold hx).2
  · intro x hx hnx
    obtain ⟨hxt, hx⟩ := hold hx
    obtain ⟨hin, hnot⟩ := h.stack x hx hnx
    refine ⟨Finset.mem_erase.mpr ⟨?_, Finset.mem_erase.mpr ⟨?_, hin⟩⟩, fun hs => hnot (hold hs).2⟩
    · intro hc
      exact hnot (hc ▸ halive)
    · intro hc
      exact hxt (h.apart x hx t halive hnx hnum hc)
  · intro x hx x' hx'
    exact h.apart x (hold hx).2 x' (hold hx').2
  · intro x hx
    rcases hrest.dead_step ha hx with hd | ⟨hexit, -⟩
    · exact h.dead x hd
    · cases hexit
  · intro f hf
    rcases List.mem_append.mp (show f ∈ [_, _] ++ r.freed from hf) with hf | hf
    · exact (hentry f hf).2.1
    · exact h.terminated f hf
  · intro f hf
    rcases List.mem_append.mp (show f ∈ [_, _] ++ r.freed from hf) with hf | hf
    · obtain ⟨hnum', -, haddr⟩ := hentry f hf
      exact ⟨n, _, hnum', h.born t halive n hn, haddr⟩
    · exact h.owned f hf
  · intro f hf x hx
    obtain ⟨hxt, hx⟩ := hold hx
    rcases List.mem_append.mp (show f ∈ [_, _] ++ r.freed from hf) with hf | hf
    · rw [(hentry f hf).1]
      intro hc
      have hsame := (h.born x hx n hc).symm.trans (h.born t halive n hn)
      exact hxt (congrArg Birth.thread (Option.some.inj hsame))
    · exact h.gone f hf x hx
  · simp only [List.map_cons, List.nodup_cons, List.mem_cons, Prod.mk.injEq, true_and, not_or]
    exact ⟨⟨hne, h.not_freed halive t⟩, h.not_freed halive _, h.once⟩

theorem Inv.exec {x : Action} (h : r.Inv a) (hx : r.Allowed x) :
    ∃ r' a', r.exec x = .ok r' ∧ r'.Inv a' := by
  cases x with
  | create thread stackAddr =>
    obtain ⟨code, shadow, hok, h'⟩ := h.create hx
    exact ⟨_, _, hok, h'⟩
  | reap =>
    obtain ⟨r', hok, h'⟩ := h.reap hx
    exact ⟨r', _, hok, h'⟩
  | call e =>
    obtain ⟨code, shadow, hok, h'⟩ := h.call hx
    exact ⟨_, _, hok, h'⟩

theorem Inv.run (h : r.Inv a) (hr : ReflTransGen Step r r') : ∃ a', r'.Inv a' := by
  induction hr with
  | refl => exact ⟨a, h⟩
  | tail _ hstep ih =>
    obtain ⟨a', h'⟩ := ih
    obtain ⟨x, hx, hok⟩ := hstep
    obtain ⟨r'', a'', hok', h''⟩ := h'.exec hx
    cases hok.symm.trans hok'
    exact ⟨a'', h''⟩

/-- `initialize_multitasking` up to its call of `create_kernel_thread`; the root thread's
`stack_base` is whatever the memory held. -/
def initial (s : SchedState) (base : ℕ → ℕ) (root idle idleStack : ℕ) : Reaper where
  code := initialState s root idle
  shadow := initialState s root idle
  stackBase := update base idle idleStack
  blocks := {root, idle, idleStack}
  births := []
  number _ := none
  freed := []

variable {s : SchedState} {root idle cleaner idleStack cleanerStack : ℕ}

theorem initial_inv (hb : Boot s) (hm : Blocks root idle cleaner) (base : ℕ → ℕ) :
    (initial s base root idle idleStack).Inv (initialPlan s root idle) where
  code := ⟨initialState_rep hb hm, initialPlan_resting hb hm⟩
  shadow := ⟨initialState_rep hb hm, initialPlan_resting hb hm⟩
  allocated t ht := by
    rcases (mem_initialState hb).mp ht with rfl | rfl <;> simp [initial]
  born := by simp [initial]
  stack := by simp [initial]
  apart := by simp [initial]
  dead := by simp [Plan.Dead, initialPlan]
  terminated := by simp [initial]
  owned := by simp [initial]
  gone := by simp [initial]
  once := List.nodup_nil

theorem initial_allowed (hb : Boot s) (hm : Blocks root idle cleaner) (base : ℕ → ℕ)
    (hs : [root, idle, idleStack, cleaner, cleanerStack].Nodup) :
    (initial s base root idle idleStack).Allowed (.create cleaner cleanerStack) := by
  have haddr := hm.cleaner_addr
  obtain ⟨h1, h2, h3⟩ := hm.apart
  simp only [List.nodup_cons, List.mem_cons, List.not_mem_nil, or_false, not_or] at hs
  obtain ⟨⟨-, -, -, hrs⟩, ⟨-, -, his⟩, ⟨hic, hss⟩, hcs, -⟩ := hs
  refine ⟨⟨fun _ => h1, by omega, haddr.2, ?_⟩, ?_, ?_, Ne.symm hcs⟩
  · intro hc
    rcases (mem_initialState hb).mp hc with rfl | rfl
    · exact h3 rfl
    · exact h2 rfl
  · simp only [initial, Finset.mem_insert, Finset.mem_singleton, not_or]
    exact ⟨h2.symm, h3.symm, Ne.symm hic⟩
  · simp only [initial, Finset.mem_insert, Finset.mem_singleton, not_or]
    exact ⟨Ne.symm hrs, Ne.symm his, Ne.symm hss⟩

/-- The cleaner frees each block of a dead thread once, and only blocks of threads that
are TERMINATED. No operation ever faults, and none does in the shadow, where every
pointer to a freed control block leads nowhere; both have the same threads in the same
queues throughout. -/
theorem reaping_safe (hb : Boot s) (hm : Blocks root idle cleaner)
    (hs : [root, idle, idleStack, cleaner, cleanerStack].Nodup) (base : ℕ → ℕ) :
    ∃ r₀, (initial s base root idle idleStack).exec (.create cleaner cleanerStack) = .ok r₀ ∧
      initializeMultitasking s root idle cleaner = .ok r₀.code ∧
      ∀ r, ReflTransGen Step r₀ r →
        (r.freed.map fun f => (f.number, f.address)).Nodup ∧
        (∀ f ∈ r.freed, f.state = .terminated ∧ (∃ n b, f.number = some n ∧
          r.births[n]? = some b ∧ (f.address = b.thread ∨ f.address = b.stack)) ∧
          ∀ t ∈ r.code.alive, r.number t ≠ f.number) ∧
        (r.code.toCommon = r.shadow.toCommon ∧
          ∃ q : Place → List ℕ, Placement r.code q ∧ Placement r.shadow q) ∧
        ∀ x, r.Allowed x → ∃ r', r.exec x = .ok r' := by
  obtain ⟨code, shadow, hr₀, h₀⟩ := (initial_inv hb hm base).create (initial_allowed hb hm base hs)
  refine ⟨_, hr₀, ?_, ?_⟩
  · have hok := hr₀
    rw [Reaper.exec, Reaper.create] at hok
    obtain ⟨r₁, hboth, hok⟩ := Outcome.bind_eq_ok.mp hok
    obtain ⟨code, hcode, hboth⟩ := Outcome.bind_eq_ok.mp hboth
    obtain ⟨shadow, -, hboth⟩ := Outcome.bind_eq_ok.mp hboth
    cases hboth
    cases hok
    exact hcode
  · intro r hr
    obtain ⟨a, h⟩ := h₀.run hr
    refine ⟨h.once, ?_, ⟨h.code.rep.common.trans h.shadow.rep.common.symm, a.queue,
      h.code.placement, h.shadow.placement⟩, ?_⟩
    · intro f hf
      refine ⟨h.terminated f hf, h.owned f hf, ?_⟩
      rw [h.code.rep.alive_eq]
      exact h.gone f hf
    · intro x hx
      obtain ⟨r', -, hok, -⟩ := h.exec hx
      exact ⟨r', hok⟩

/-- A call that makes and frees no thread, and ends only one that was created. -/
def callable (number : ℕ → Option ℕ) (a : Plan) : Event → Bool
  | .createKernelThread _ => false
  | .reapThread => false
  | .threadExit => (number a.currentThread).isSome
  | _ => true

theorem Inv.follow {number : ℕ → Option ℕ} (h : r.Inv a) (hn : r.number = number) (es : List Event)
    (hes : Along Plan.step (fun a e => a.Allowed e ∧ callable number a e) a es) :
    ∃ code shadow, ReflTransGen Step r { r with code := code, shadow := shadow } ∧
      Inv { r with code := code, shadow := shadow } (es.foldl Plan.step a) := by
  have hrun : ∃ r', ReflTransGen Step r r' ∧ r'.Inv (es.foldl Plan.step a) ∧
      r' = { r with code := r'.code, shadow := r'.shadow } := by
    refine hes.follow (S := fun (r' : Reaper) a => r'.Inv a ∧
      r' = { r with code := r'.code, shadow := r'.shadow }) (fun {r' a e} h he => ?_) ⟨h, rfl⟩
    obtain ⟨h, hsame⟩ := h
    have hnumber : r'.number = number := (congrArg Reaper.number hsame).trans hn
    have hall : r'.Allowed (.call e) := by
      refine ⟨h.code.rep.allowed.mpr he.1, ?_, ?_, ?_⟩
      · rintro t rfl
        cases he.2
      · rintro rfl
        cases he.2
      · rintro rfl
        rw [hnumber, h.code.rep.current_eq]
        exact Option.isSome_iff_ne_none.mp he.2
    obtain ⟨code, shadow, hok, h'⟩ := h.call hall
    refine ⟨_, ⟨_, hall, hok⟩, h', ?_⟩
    rw [hsame]
  obtain ⟨r', hr, h', hsame⟩ := hrun
  rw [hsame] at hr h'
  exact ⟨_, _, hr, h'⟩

/-- The root thread sleeps, the cleaner uses up its slice, the new thread exits, and the
cleaner takes it over. -/
def reapEvents : List Event :=
  .threadSleep 50 :: List.replicate 10 .tick ++ [.threadExit, .detachTerminated]

/-- A second thread is created and exits, and the cleaner frees its two blocks. -/
theorem reaping_safe_sample :
    ∃ r₀ r, (initial zeroState (fun _ => 0) 16 32 64).exec (.create 48 80) = .ok r₀ ∧
      ReflTransGen Step r₀ r ∧ (r.freed.map fun f => f.address) = [96, 112] ∧
      (∀ f ∈ r.freed, f.state = .terminated) ∧
      (r.freed.map fun f => (f.number, f.address)).Nodup ∧ r.code.toCommon = r.shadow.toCommon := by
  have hblocks : [16, 32, 64, 48, 80].Nodup := by decide
  obtain ⟨r₀, hr₀, -, hrun⟩ := reaping_safe zeroState_boot sampleBlocks hblocks fun _ => 0
  obtain ⟨code, shadow, hok, h₀⟩ := (initial_inv zeroState_boot sampleBlocks fun _ => 0).create
    (initial_allowed zeroState_boot sampleBlocks _ hblocks)
  cases hok.symm.trans hr₀
  have hcreate : Reaper.Allowed (withBirth _ code shadow 48 80) (.create 96 112) :=
    ⟨h₀.code.rep.allowed.mpr (by decide), by simp [withBirth, initial], by simp [withBirth, initial],
      by decide⟩
  obtain ⟨code₁, shadow₁, hok₁, h₁⟩ := h₀.create hcreate
  have hnumber : ((withBirth (initial zeroState (fun _ => 0) 16 32 64) code shadow 48 80).withBirth
      code₁ shadow₁ 96 112).number = update (update (fun _ => none) 48 (some 0)) 96 (some 1) := rfl
  obtain ⟨code₂, shadow₂, hr₂, h₂⟩ := h₁.follow hnumber reapEvents (by decide +kernel)
  have hqueue : (reapEvents.foldl Plan.step (((initialPlan zeroState 16 32).step
      (.createKernelThread 48)).step (.createKernelThread 96))).queue .detached = [96] := by decide +kernel
  have hreap : Reaper.Allowed _ .reap := h₂.code.rep.allowed.mpr (by decide +kernel)
  obtain ⟨code₃, shadow₃, hok₃, -⟩ := h₂.reap_exec hreap hqueue
  have hr := (ReflTransGen.head ⟨_, hcreate, hok₁⟩ hr₂).tail ⟨_, hreap, hok₃⟩
  obtain ⟨honce, hfreed, ⟨hsame, -⟩, -⟩ := hrun _ hr
  exact ⟨_, _, hr₀, hr, rfl, fun f hf => (hfreed f hf).1, honce, hsame⟩

end Reaper

end KallarOS.Sched
