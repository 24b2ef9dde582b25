import KallarOS.TaskModel

namespace KallarOS.Task
open ByteMemory

def word (m : Mem) (a : ℕ) : Word := BitVec.ofNat 32 (read32 m a)

theorem toNat_word (m : Mem) (a : ℕ) : (word m a).toNat = read32 m a := by
  rw [word, BitVec.toNat_ofNat, Nat.mod_eq_of_lt (read32_lt m a)]

theorem word_write32_self (m : Mem) (a : ℕ) (v : Word) : word (write32 m a v.toNat) a = v := by
  rw [word, read32_write32_self m a v.isLt, BitVec.ofNat_toNat, BitVec.setWidth_eq]

theorem word_write32_disjoint (m : Mem) {a b : ℕ} (v : ℕ) (h : a + 4 ≤ b ∨ b + 4 ≤ a) :
    word (write32 m a v) b = word m b :=
  congrArg (BitVec.ofNat 32) (read32_write32_disjoint m v h)

theorem word_congr {m m' : Mem} {a : ℕ} (h : ∀ i, a ≤ i → i < a + 4 → m i = m' i) :
    word m a = word m' a :=
  congrArg (BitVec.ofNat 32) (read32_congr h)

theorem Cpu.load_eq (c : Cpu) (a : Word) : c.load a = word c.mem a.toNat := rfl

/-- What a stack holds while its thread is switched out, from `esp` up. -/
structure Context where
  edi : Word
  esi : Word
  ebx : Word
  ebp : Word
  eflags : Word
  returnTo : Word

def Context.words (x : Context) : List Word := [x.edi, x.esi, x.ebx, x.ebp, x.eflags, x.returnTo]

/-- The words `ws` stand at `a`. -/
def Holds (m : Mem) (a : ℕ) (ws : List Word) : Prop :=
  ∀ k w, ws[k]? = some w → word m (a + 4 * k) = w

theorem Holds.congr {m m' : Mem} {a : ℕ} {ws : List Word} (h : Holds m a ws)
    (heq : ∀ i, a ≤ i → i < a + 4 * ws.length → m' i = m i) : Holds m' a ws := by
  intro k w hk
  have hlt : k < ws.length := (List.getElem?_eq_some_iff.mp hk).1
  rw [← h k w hk]
  exact word_congr fun i hi hi' => heq i (by omega) (by omega)

theorem writeWords_outside (m : Mem) {a i : ℕ} {ws : List Word}
    (h : i < a ∨ a + 4 * ws.length ≤ i) : writeWords m a ws i = m i := by
  induction ws generalizing m a with
  | nil => rfl
  | cons w ws ih =>
    rw [List.length_cons] at h
    rw [writeWords, ih _ (by omega), write32_apply_disjoint m _ (by omega)]

theorem writeWords_holds (m : Mem) (a : ℕ) (ws : List Word) : Holds (writeWords m a ws) a ws := by
  induction ws generalizing m a with
  | nil => exact fun k w hk => absurd hk (by simp)
  | cons v ws ih =>
    intro k w hk
    cases k with
    | zero =>
      obtain rfl : v = w := Option.some.inj hk
      rw [writeWords, Nat.mul_zero, Nat.add_zero]
      refine (word_congr fun i hi hi' => ?_).trans (word_write32_self m a v)
      exact writeWords_outside _ (Or.inl (by omega))
    | succ k =>
      have h := ih (write32 m a v.toNat) (a + 4) k w hk
      rw [show a + 4 + 4 * k = a + 4 * (k + 1) by omega] at h
      exact h

/-- The context `switch_to_task` saves for the caller. -/
def Cpu.context (c : Cpu) (returnTo : Word) : Context :=
  ⟨c.reg .edi, c.reg .esi, c.reg .ebx, c.reg .ebp, c.eflags.word, returnTo⟩

/-- The memory after the switch: the context below the arguments, its address in
the control block. -/
def Cpu.saved (c : Cpu) (prev returnTo : Word) : Mem :=
  write32 (writeWords c.mem (c.esp.toNat - 24) (c.context returnTo).words) prev.toNat
    (c.esp.toNat - 24)

theorem Flags.pushed (f : Flags) : f.word &&& 0x00FCFFFF = f.word := by
  have h : (0x00FCFFFF : Word) &&& flagMask = flagMask := by decide
  have h2 : (0x2 : Word) &&& 0x00FCFFFF = 0x2 := by decide
  have hf : (f.word &&& flagMask) ||| 0x2 = f.word := f.legal
  rw [← hf, BitVec.and_or_distrib_right, h2, BitVec.and_assoc, BitVec.and_comm flagMask, h]

/-- The stores of the saving half, in the order of the pushes. -/
theorem saved_pushes (c : Cpu) (prev returnTo : Word) (h : 24 ≤ c.esp.toNat) :
    c.saved prev returnTo = write32 (write32 (write32 (write32 (write32 (write32 (write32 c.mem
      (c.esp.toNat - 4) returnTo.toNat) (c.esp.toNat - 8) c.eflags.word.toNat)
      (c.esp.toNat - 12) (c.reg .ebp).toNat) (c.esp.toNat - 16) (c.reg .ebx).toNat)
      (c.esp.toNat - 20) (c.reg .esi).toNat) (c.esp.toNat - 24) (c.reg .edi).toNat)
      prev.toNat (c.esp.toNat - 24) := by
  unfold Cpu.saved
  refine congrArg (fun m => write32 m prev.toNat (c.esp.toNat - 24)) ?_
  generalize c.esp.toNat = e at h
  funext i
  simp only [Cpu.context, Context.words, writeWords]
  obtain ⟨b, rfl⟩ : ∃ b, e = b + 24 := ⟨e - 24, by omega⟩
  simp only [write32, Nat.add_sub_cancel, show b + 24 - 4 = b + 20 by omega,
    show b + 24 - 8 = b + 16 by omega, show b + 24 - 12 = b + 12 by omega,
    show b + 24 - 16 = b + 8 by omega, show b + 24 - 20 = b + 4 by omega, Nat.add_assoc]
  split_ifs <;> first | rfl | omega

theorem toNat_esp_sub (w : Word) {k : ℕ} (hk : k ≤ w.toNat) :
    (w - BitVec.ofNat 32 k).toNat = w.toNat - k := by
  have hlt := w.isLt
  bv_omega

theorem toNat_esp_add (w : Word) {k : ℕ} (hk : w.toNat + k < 2 ^ 32) :
    (w + BitVec.ofNat 32 k).toNat = w.toNat + k := by
  bv_omega

theorem esp_sub_sub (w : Word) (j k : ℕ) :
    w - BitVec.ofNat 32 j - BitVec.ofNat 32 k = w - BitVec.ofNat 32 (j + k) := by
  rw [BitVec.sub_sub, BitVec.ofNat_add]

theorem esp_add_add (w : Word) (j k : ℕ) :
    w + BitVec.ofNat 32 j + BitVec.ofNat 32 k = w + BitVec.ofNat 32 (j + k) := by
  rw [BitVec.add_assoc, BitVec.ofNat_add]

/-- The state when the saving half has run and `[eax]` has been stored to. -/
theorem saving_half (c : Cpu) (returnTo : Word) (h : 24 ≤ c.esp.toNat)
    (h' : c.esp.toNat + 8 ≤ 2 ^ 32) :
    (switchToTask.take 7).foldl exec (c.push returnTo) =
      { c with
        reg := Function.update c.reg .eax (word c.mem c.esp.toNat)
        esp := c.esp - 24
        mem := c.saved (word c.mem c.esp.toNat) returnTo } := by
  have e4 : (c.esp - 4).toNat = c.esp.toNat - 4 := toNat_esp_sub c.esp (k := 4) (by omega)
  have s8 : c.esp - 4 - 4 = c.esp - 8 := esp_sub_sub c.esp 4 4
  have s12 : c.esp - 8 - 4 = c.esp - 12 := esp_sub_sub c.esp 8 4
  have s16 : c.esp - 12 - 4 = c.esp - 16 := esp_sub_sub c.esp 12 4
  have s20 : c.esp - 16 - 4 = c.esp - 20 := esp_sub_sub c.esp 16 4
  have s24 : c.esp - 20 - 4 = c.esp - 24 := esp_sub_sub c.esp 20 4
  have e8 : (c.esp - 8).toNat = c.esp.toNat - 8 := toNat_esp_sub c.esp (k := 8) (by omega)
  have e12 : (c.esp - 12).toNat = c.esp.toNat - 12 := toNat_esp_sub c.esp (k := 12) (by omega)
  have e16 : (c.esp - 16).toNat = c.esp.toNat - 16 := toNat_esp_sub c.esp (k := 16) (by omega)
  have e20 : (c.esp - 20).toNat = c.esp.toNat - 20 := toNat_esp_sub c.esp (k := 20) (by omega)
  have e24 : (c.esp - 24).toNat = c.esp.toNat - 24 := toNat_esp_sub c.esp (k := 24) (by omega)
  have harg : c.esp - 24 + 24 = c.esp := BitVec.sub_add_cancel c.esp 24
  simp only [switchToTask, List.take_succ_cons, List.take_zero, List.foldl_cons, List.foldl_nil,
    exec, Cpu.push, Cpu.setReg, Cpu.load_eq, Flags.pushed, s8, s12, s16, s20, s24, e4, e8, e12, e16,
    e20, e24, harg]
  rw [saved_pushes c _ _ h]
  simp (disch := omega) only [word_write32_disjoint, Function.update_self]

/-- The machine runs in the context `x`, its stack pointer at `top`. -/
structure Runs (c : Cpu) (x : Context) (top : ℕ) : Prop where
  edi : c.reg .edi = x.edi
  esi : c.reg .esi = x.esi
  ebx : c.reg .ebx = x.ebx
  ebp : c.reg .ebp = x.ebp
  eflags : c.eflags.word = legalFlags x.eflags
  eip : c.eip = x.returnTo
  esp : c.esp.toNat = top

/-- The restoring half takes the context at the new stack pointer back. -/
theorem restoring_half (d : Cpu) {x : Context} {n : Word} (hn : d.load (d.esp + 28) = n)
    (hlt : n.toNat + 24 < 2 ^ 32) (hx : Holds d.mem n.toNat x.words) :
    Runs ((switchToTask.drop 7).foldl exec d) x (n.toNat + 24) ∧
      ((switchToTask.drop 7).foldl exec d).mem = d.mem := by
  have a8 : n + 4 + 4 = n + 8 := esp_add_add n 4 4
  have a12 : n + 8 + 4 = n + 12 := esp_add_add n 8 4
  have a16 : n + 12 + 4 = n + 16 := esp_add_add n 12 4
  have a20 : n + 16 + 4 = n + 20 := esp_add_add n 16 4
  have a24 : n + 20 + 4 = n + 24 := esp_add_add n 20 4
  have e4 : (n + 4).toNat = n.toNat + 4 := toNat_esp_add n (k := 4) (by omega)
  have e8 : (n + 8).toNat = n.toNat + 8 := toNat_esp_add n (k := 8) (by omega)
  have e12 : (n + 12).toNat = n.toNat + 12 := toNat_esp_add n (k := 12) (by omega)
  have e16 : (n + 16).toNat = n.toNat + 16 := toNat_esp_add n (k := 16) (by omega)
  have e20 : (n + 20).toNat = n.toNat + 20 := toNat_esp_add n (k := 20) (by omega)
  have e24 : (n + 24).toNat = n.toNat + 24 := toNat_esp_add n (k := 24) (by omega)
  have w0 : word d.mem n.toNat = x.edi := hx 0 _ rfl
  have w1 : word d.mem (n.toNat + 4) = x.esi := hx 1 _ rfl
  have w2 : word d.mem (n.toNat + 8) = x.ebx := hx 2 _ rfl
  have w3 : word d.mem (n.toNat + 12) = x.ebp := hx 3 _ rfl
  have w4 : word d.mem (n.toNat + 16) = x.eflags := hx 4 _ rfl
  have w5 : word d.mem (n.toNat + 20) = x.returnTo := hx 5 _ rfl
  simp only [switchToTask, List.drop_succ_cons, List.drop_zero, List.foldl_cons, List.foldl_nil,
    exec, hn, Cpu.setReg, Cpu.drop, Cpu.load_eq, a8, a12, a16, a20, a24, e4, e8, e12, e16, e20,
    w0, w1, w2, w3, w4, w5]
  exact ⟨⟨rfl, rfl, rfl, rfl, rfl, rfl, e24⟩, trivial⟩

/-- A call of `switch_to_task` with its arguments on the stack saves the caller's
context and goes on in the one that `next` was left in. -/
theorem callSwitch_runs (c : Cpu) (prev next returnTo : Word) {x : Context}
    (hroom : 24 ≤ c.esp.toNat) (hargs : Holds c.mem c.esp.toNat [prev, next])
    (hspace : c.esp.toNat + 8 ≤ 2 ^ 32) (htop : next.toNat + 24 < 2 ^ 32)
    (hprev : prev.toNat + 4 ≤ c.esp.toNat - 24 ∨ c.esp.toNat + 8 ≤ prev.toNat)
    (hnext : next.toNat + 24 ≤ c.esp.toNat - 24 ∨ c.esp.toNat ≤ next.toNat)
    (hcell : prev.toNat + 4 ≤ next.toNat ∨ next.toNat + 24 ≤ prev.toNat)
    (hx : Holds c.mem next.toNat x.words) :
    Runs (callSwitch c returnTo) x (next.toNat + 24) ∧
      (callSwitch c returnTo).mem = c.saved prev returnTo := by
  have harg0 : word c.mem c.esp.toNat = prev := hargs 0 _ rfl
  have harg1 : word c.mem (c.esp.toNat + 4) = next := hargs 1 _ rfl
  have hsplit : callSwitch c returnTo =
      (switchToTask.drop 7).foldl exec ((switchToTask.take 7).foldl exec (c.push returnTo)) := by
    rw [← List.foldl_append, List.take_append_drop]
    rfl
  -- the saving half stores below the stack pointer and to the cell in `prev`, nowhere else
  have houtside : ∀ i, (i < c.esp.toNat - 24 ∨ c.esp.toNat ≤ i) →
      (i < prev.toNat ∨ prev.toNat + 4 ≤ i) → c.saved prev returnTo i = c.mem i := by
    intro i hi hi'
    rw [Cpu.saved, write32_apply_disjoint _ _ hi']
    exact writeWords_outside _ (by simp only [Context.words, List.length_cons, List.length_nil]; omega)
  rw [hsplit, saving_half c returnTo hroom hspace, harg0]
  refine restoring_half _ ?_ htop ?_
  -- the second argument, seen past the saved words and the return address
  · have h28 : c.esp - 24 + 28 = c.esp + 4 := by
      rw [show (28 : Word) = 24 + 4 by decide, ← BitVec.add_assoc, BitVec.sub_add_cancel]
    have h4 : (c.esp + 4).toNat = c.esp.toNat + 4 := toNat_esp_add c.esp (k := 4) (by omega)
    rw [h28, Cpu.load_eq, h4, ← harg1]
    exact word_congr fun i hi hi' => houtside i (by omega) (by omega)
  · refine hx.congr fun i hi hi' => ?_
    have h24 : x.words.length = 6 := rfl
    exact houtside i (by omega) (by omega)

end KallarOS.Task
