import EthernetIf.Lib.Lts
import EthernetIf.Lib.RecLock
import Mathlib.Data.BitVec

/-!
# The core lock and its check

`sys_lock_tcpip_core` wraps the recursive mutex `lock_tcpip_core` in two static variables, a
`u8_t` that counts the nested takes and the handle of the task that made the first of them.
`sys_check_core_locking`, which lwIP runs wherever `LWIP_ASSERT_CORE_LOCKED` stands, reads both
**without** the mutex. So the question is what a task can read there while others are half way
through taking the lock or giving it, and the model is of any number of tasks, each anywhere
in the four functions, one access to shared memory at a time.

A check that passes is right once the tcpip thread is marked, whatever the others do and however
deep the nesting (`core_check_sound`); before that, `sys_check_core_locking` lets every task pass.
Whether one that fails is right depends on the width of the counter: `EthernetIf.Sys.Nesting`.
-/

namespace EthernetIf

open Lts

/-! ## The machine -/

/-- What a task calls. -/
inductive CoreFn
  | lock     -- LOCK_TCPIP_CORE()
  | unlock   -- UNLOCK_TCPIP_CORE()
  | mark     -- LWIP_MARK_TCPIP_THREAD()
  | check    -- LWIP_ASSERT_CORE_LOCKED()
deriving DecidableEq, Repr

/-- The statements of the four functions. A register that holds the counter between its load
    and its store is an argument of the store. -/
inductive CoreStmt
  | take                      -- sys_mutex_lock(&lock_tcpip_core);
  | testFirst                 -- if (lwip_core_lock_count == 0)
  | setHolder                 --   lwip_core_lock_holder_thread = xTaskGetCurrentTaskHandle();
  | loadInc                   -- lwip_core_lock_count++;
  | storeInc (v : BitVec 8)
  | loadDec                   -- lwip_core_lock_count--;
  | storeDec (v : BitVec 8)
  | testLast                  -- if (lwip_core_lock_count == 0)
  | clearHolder               --   lwip_core_lock_holder_thread = 0;
  | give                      -- sys_mutex_unlock(&lock_tcpip_core);
  | setThread                 -- lwip_tcpip_thread = xTaskGetCurrentTaskHandle();
  | testThread                -- if (lwip_tcpip_thread != 0)
  | readHolder                --   current_thread == lwip_core_lock_holder_thread
  | readCount                 --     && lwip_core_lock_count > 0
deriving DecidableEq, Repr

/-- The first statement of a function. -/
def CoreFn.entry : CoreFn → CoreStmt
  | .lock => .take
  | .unlock => .loadDec
  | .mark => .setThread
  | .check => .testThread

/-- One run of `sys_check_core_locking`: by whom, whether it came to the assertion, whether it
    returned without printing, and how often the task then had the mutex. -/
structure Verdict (τ : Type) where
  task : τ
  asserted : Bool
  passed : Bool
  depth : Nat
deriving DecidableEq, Repr

/-- The static variables, and where each task is: `none` is in its own code. `verdicts` is a
    history variable. -/
structure CoreState (τ : Type) where
  mutex : RecLock τ              -- lock_tcpip_core
  count : BitVec 8               -- lwip_core_lock_count
  holder : Option τ              -- lwip_core_lock_holder_thread
  thread : Option τ              -- lwip_tcpip_thread
  pc : τ → Option CoreStmt
  verdicts : List (Verdict τ)

inductive CoreAct (τ : Type)
  | call (t : τ) (f : CoreFn)
  | run (t : τ)
deriving DecidableEq, Repr

variable {τ : Type} [DecidableEq τ]

namespace CoreState

omit [DecidableEq τ] in
/-- Zeroed memory, and a new mutex. -/
def init : CoreState τ :=
  { mutex := .free, count := 0, holder := none, thread := none, pc := fun _ => none,
    verdicts := [] }

def goto (s : CoreState τ) (t : τ) (st : CoreStmt) : CoreState τ :=
  { s with pc := Function.update s.pc t (some st) }

/-- `return;` -/
def ret (s : CoreState τ) (t : τ) : CoreState τ :=
  { s with pc := Function.update s.pc t none }

/-- The end of `sys_check_core_locking`. -/
def verdict (s : CoreState τ) (t : τ) (asserted passed : Bool) : CoreState τ :=
  ret { s with
    verdicts := s.verdicts ++ [{ task := t, asserted, passed, depth := s.mutex.depth t }] } t

/-- The assertion prints when it fails, and goes on. -/
def assert (s : CoreState τ) (t : τ) (b : Bool) : CoreState τ := s.verdict t true b

@[simp] theorem goto_pc (s : CoreState τ) (t : τ) (st : CoreStmt) :
    (s.goto t st).pc t = some st := Function.update_self ..

@[simp] theorem ret_pc (s : CoreState τ) (t : τ) : (s.ret t).pc t = none :=
  Function.update_self ..

@[simp] theorem verdict_pc (s : CoreState τ) (t : τ) (a b : Bool) :
    (s.verdict t a b).pc t = none := Function.update_self ..

@[simp] theorem assert_pc (s : CoreState τ) (t : τ) (b : Bool) : (s.assert t b).pc t = none :=
  verdict_pc ..

/-- A statement of task `t`. A mutex given by a task that does not have it stays as it is, and a
    check that finds no tcpip thread passes, whoever makes it. -/
def statement (s : CoreState τ) (t : τ) : CoreStmt → Option (CoreState τ)
  | .take => (s.mutex.take t).map fun m => goto { s with mutex := m } t .testFirst
  | .testFirst => some (s.goto t (if s.count = 0 then .setHolder else .loadInc))
  | .setHolder => some ({ s with holder := some t }.goto t .loadInc)
  | .loadInc => some (s.goto t (.storeInc s.count))
  | .storeInc v => some ({ s with count := v + 1 }.ret t)
  | .loadDec => some (s.goto t (.storeDec s.count))
  | .storeDec v => some ({ s with count := v - 1 }.goto t .testLast)
  | .testLast => some (s.goto t (if s.count = 0 then .clearHolder else .give))
  | .clearHolder => some ({ s with holder := none }.goto t .give)
  | .give => some ({ s with mutex := (s.mutex.give t).getD s.mutex }.ret t)
  | .setThread => some ({ s with thread := some t }.ret t)
  | .testThread =>
      some (if s.thread.isSome then s.goto t .readHolder else s.verdict t false true)
  | .readHolder => some (if s.holder = some t then s.goto t .readCount else s.assert t false)
  | .readCount => some (s.assert t (decide (0 < s.count)))

end CoreState

def coreStep (s : CoreState τ) : CoreAct τ → Option (CoreState τ)
  | .call t f => if s.pc t = none then some (s.goto t f.entry) else none
  | .run t => (s.pc t).bind (s.statement t)

/-- Only a task that has the lock calls `sys_unlock_tcpip_core`. -/
def CoreAct.Paired (s : CoreState τ) : CoreAct τ → Prop
  | .call t .unlock => 0 < s.mutex.depth t
  | _ => True

instance CoreAct.decidablePaired (s : CoreState τ) (a : CoreAct τ) : Decidable (a.Paired s) :=
  match a with
  | .call t .unlock => inferInstanceAs (Decidable (0 < s.mutex.depth t))
  | .call _ .lock | .call _ .mark | .call _ .check | .run _ => .isTrue trivial

/-! ## What the variables say of the mutex -/

/-- The statements that only the task with the mutex is at. -/
def CoreStmt.inside : CoreStmt → Bool
  | .take | .setThread | .testThread | .readHolder => false
  | _ => true

/-- How many takes the counter has been told of, when its task has the mutex `n + 1` times:
    one less where a take is not counted yet or a give is already. -/
def counted (n : Nat) : Option CoreStmt → Nat
  | some .testFirst | some .setHolder | some .loadInc | some (.storeInc _) | some .testLast
  | some .clearHolder | some .give => n
  | _ => n + 1

/-- What the task that has the mutex `n + 1` times finds. The counter may have wrapped, so
    `holder` may have been cleared too early, but never too late. -/
structure OwnerInv (s : CoreState τ) (t : τ) (n : Nat) : Prop where
  count : s.count = BitVec.ofNat 8 (counted n (s.pc t))
  loaded : ∀ v, s.pc t = some (.storeInc v) ∨ s.pc t = some (.storeDec v) → v = s.count
  holder : s.holder = none ∨ s.holder = some t
  atClear : s.pc t = some .clearHolder → s.count = 0
  atGive : s.pc t = some .give → s.count = 0 → s.holder = none

structure CoreInv (s : CoreState τ) : Prop where
  free : s.mutex = .free → s.count = 0 ∧ s.holder = none
  owner : ∀ t n, s.mutex = .held t n → OwnerInv s t n
  inside : ∀ t st, s.pc t = some st → st.inside = true → 0 < s.mutex.depth t
  verdicts : ∀ v ∈ s.verdicts, v.asserted = true → v.passed = true → 0 < v.depth

omit [DecidableEq τ] in
/-- Outside the critical statements the counter is up to date. -/
theorem counted_of_outside {n : Nat} {o : Option CoreStmt}
    (h : ∀ st, o = some st → st.inside = false) : counted n o = n + 1 := by
  cases o with
  | none => rfl
  | some st =>
    have hst := h st rfl
    cases st with
    | take | setThread | testThread | readHolder => rfl
    | _ => cases hst

omit [DecidableEq τ] in
/-- What the owner finds, from one state to another that differs outside of it. -/
theorem OwnerInv.congr {s s' : CoreState τ} {t : τ} {n : Nat} (h : OwnerInv s t n)
    (hcount : s'.count = s.count) (hholder : s'.holder = s.holder) (hpc : s'.pc t = s.pc t) :
    OwnerInv s' t n where
  count := by rw [hcount, hpc, h.count]
  loaded := by
    rw [hcount, hpc]
    exact h.loaded
  holder := by
    rw [hholder]
    exact h.holder
  atClear := by
    rw [hcount, hpc]
    exact h.atClear
  atGive := by
    rw [hcount, hholder, hpc]
    exact h.atGive

omit [DecidableEq τ] in
/-- What the owner finds at the statement it is at. -/
theorem OwnerInv.of_pc {s : CoreState τ} {t : τ} {n : Nat} {o : Option CoreStmt}
    (hpc : s.pc t = o) (hcount : s.count = BitVec.ofNat 8 (counted n o))
    (hloaded : ∀ v, o = some (.storeInc v) ∨ o = some (.storeDec v) → v = s.count)
    (hholder : s.holder = none ∨ s.holder = some t)
    (hclear : o = some .clearHolder → s.count = 0)
    (hgive : o = some .give → s.count = 0 → s.holder = none) : OwnerInv s t n := by
  subst hpc
  exact ⟨hcount, hloaded, hholder, hclear, hgive⟩

omit [DecidableEq τ] in
/-- The owner between two critical sections of code. -/
theorem OwnerInv.outside {s : CoreState τ} {t : τ} {n : Nat}
    (hpc : ∀ st, s.pc t = some st → st.inside = false) (hcount : s.count = BitVec.ofNat 8 (n + 1))
    (hholder : s.holder = none ∨ s.holder = some t) : OwnerInv s t n where
  count := by rw [counted_of_outside hpc, hcount]
  loaded := by
    rintro v (hv | hv)
    · cases hpc _ hv
    · cases hpc _ hv
  holder := hholder
  atClear := fun h => by cases hpc _ h
  atGive := fun h => by cases hpc _ h

namespace CoreInv

theorem init : CoreInv (.init : CoreState τ) where
  free := fun _ => ⟨rfl, rfl⟩
  owner := fun _ _ h => by cases h
  inside := fun _ _ h => by cases h
  verdicts := fun _ h => by cases h

/-- A statement of the owner that leaves the mutex alone. -/
theorem ofOwner {s s' : CoreState τ} {t : τ} {n : Nat} (h : CoreInv s)
    (hm : s.mutex = .held t n) (hm' : s'.mutex = s.mutex)
    (hpc : ∀ u, u ≠ t → s'.pc u = s.pc u) (hown : OwnerInv s' t n)
    (hv : ∀ v ∈ s'.verdicts, v.asserted = true → v.passed = true → 0 < v.depth) :
    CoreInv s' where
  free := fun hfree => by
    rw [hm', hm] at hfree
    cases hfree
  owner := fun u k hu => by
    rw [hm', hm] at hu
    cases hu
    exact hown
  inside := fun u st hu hin => by
    rw [hm']
    by_cases hut : u = t
    · rw [hut, hm]
      simp
    · exact h.inside u st (hpc u hut ▸ hu) hin
  verdicts := hv

/-- A statement outside the critical ones that changes neither the mutex, nor the counter, nor
    the handle. -/
theorem ofOutside {s s' : CoreState τ} {t : τ} (h : CoreInv s) (hm : s'.mutex = s.mutex)
    (hcount : s'.count = s.count) (hholder : s'.holder = s.holder)
    (hpc : ∀ u, u ≠ t → s'.pc u = s.pc u) (hbefore : ∀ st, s.pc t = some st → st.inside = false)
    (hafter : ∀ st, s'.pc t = some st → st.inside = false)
    (hv : ∀ v ∈ s'.verdicts, v.asserted = true → v.passed = true → 0 < v.depth) :
    CoreInv s' where
  free := fun hfree => by
    rw [hcount, hholder]
    exact h.free (hm ▸ hfree)
  owner := fun u n hu => by
    have hown := h.owner u n (hm ▸ hu)
    by_cases hut : u = t
    · rw [hut] at hown ⊢
      apply OwnerInv.outside hafter
      · rw [hcount, hown.count, counted_of_outside hbefore]
      · rw [hholder]
        exact hown.holder
    · exact hown.congr hcount hholder (hpc u hut)
  inside := fun u st hu hin => by
    rw [hm]
    by_cases hut : u = t
    · rw [hut] at hu
      exact absurd (hafter st hu) (by simp [hin])
    · exact h.inside u st (hpc u hut ▸ hu) hin
  verdicts := hv

/-- `sys_mutex_lock` hands the mutex to `t`. -/
theorem ofTake {s : CoreState τ} {t : τ} {m : RecLock τ} (h : CoreInv s)
    (hpc : s.pc t = some .take) (hm : s.mutex.take t = some m) :
    CoreInv (CoreState.goto { s with mutex := m } t .testFirst) where
  free := fun hfree => by
    have hd := RecLock.depth_take hm
    rw [show m = .free from hfree] at hd
    cases hd
  owner := fun u n hu => by
    rcases RecLock.take_cases hm with ⟨hfree, rfl⟩ | ⟨k, hheld, rfl⟩
    · cases hu
      obtain ⟨hcount, hholder⟩ := h.free hfree
      exact .of_pc (CoreState.goto_pc ..) hcount (by simp) (.inl hholder) (by simp) (by simp)
    · cases hu
      have hown := h.owner t k hheld
      have hcount := hown.count
      rw [hpc] at hcount
      exact .of_pc (CoreState.goto_pc ..) hcount (by simp) hown.holder (by simp) (by simp)
  inside := fun u st hu hin => by
    show 0 < m.depth u
    by_cases hut : u = t
    · rw [hut, RecLock.depth_take hm]
      exact Nat.succ_pos _
    · rw [RecLock.depth_take_ne hm (Ne.symm hut)]
      apply h.inside u st _ hin
      simpa [CoreState.goto, hut] using hu
  verdicts := h.verdicts

/-- `sys_mutex_unlock` takes it back: the last statement of `sys_unlock_tcpip_core`. -/
theorem ofGive {s : CoreState τ} {t : τ} (h : CoreInv s) (hpc : s.pc t = some .give) :
    CoreInv (CoreState.ret { s with mutex := (s.mutex.give t).getD s.mutex } t) := by
  obtain ⟨n, hheld⟩ := RecLock.depth_pos.mp (h.inside t _ hpc rfl)
  have hown := h.owner t n hheld
  have hcount := hown.count
  rw [hpc] at hcount
  -- no other task is at a critical statement, and `t` has left them
  have hinside : ∀ m : RecLock τ, ∀ u st, (CoreState.ret { s with mutex := m } t).pc u = some st →
      st.inside = true → 0 < m.depth u := by
    intro m u st hu hin
    by_cases hut : u = t
    · rw [hut] at hu
      simp at hu
    · have hpos := h.inside u st (by simpa [CoreState.ret, hut] using hu) hin
      rw [hheld, RecLock.depth_held_ne (Ne.symm hut)] at hpos
      exact absurd hpos (Nat.lt_irrefl 0)
  cases n with
  | zero =>
    rw [hheld, RecLock.give_held_zero, Option.getD_some]
    refine ⟨fun _ => ⟨hcount, hown.atGive hpc hcount⟩, fun u k hu => ?_, hinside _, h.verdicts⟩
    cases hu
  | succ n =>
    rw [hheld, RecLock.give_held_succ, Option.getD_some]
    refine ⟨fun hfree => absurd hfree (by simp [CoreState.ret]), fun u k hu => ?_, hinside _,
      h.verdicts⟩
    cases hu
    exact OwnerInv.outside (by simp) hcount hown.holder

/-- A statement outside the critical ones, to another such statement. -/
theorem goto {s : CoreState τ} {t : τ} {st : CoreStmt} (h : CoreInv s)
    (hbefore : ∀ st, s.pc t = some st → st.inside = false) (hst : st.inside = false) :
    CoreInv (s.goto t st) :=
  h.ofOutside rfl rfl rfl (fun _ hu => Function.update_of_ne hu ..) hbefore
    (fun st' hst' => by
      rw [CoreState.goto_pc, Option.some.injEq] at hst'
      rw [← hst', hst])
    h.verdicts

/-- A check that was no assertion, or an assertion that fails or that the owner of the mutex
    makes. -/
theorem verdicts_verdict {s : CoreState τ} {t : τ} {a b : Bool} (h : CoreInv s)
    (hb : a = true → b = true → 0 < s.mutex.depth t) :
    ∀ v ∈ (s.verdict t a b).verdicts, v.asserted = true → v.passed = true → 0 < v.depth := by
  intro v hv hasserted hpassed
  rcases List.mem_append.mp hv with hold | hnew
  · exact h.verdicts v hold hasserted hpassed
  · cases List.mem_singleton.mp hnew
    exact hb hasserted hpassed

/-- The statements of the owner. -/
theorem critical {s s' : CoreState τ} {t : τ} {st : CoreStmt} (h : CoreInv s)
    (hpc : s.pc t = some st) (hin : st.inside = true) (hst : st ≠ .give)
    (hstep : s.statement t st = some s') : CoreInv s' := by
  obtain ⟨n, hheld⟩ := RecLock.depth_pos.mp (h.inside t _ hpc hin)
  have hown := h.owner t n hheld
  have hcount := hown.count
  rw [hpc] at hcount
  have hne : ∀ o u, u ≠ t → Function.update s.pc t o u = s.pc u := by
    intro o u hu
    exact Function.update_of_ne hu ..
  cases st with
  | testFirst =>
    obtain rfl := Option.some.inj hstep
    refine h.ofOwner hheld rfl (hne _) ?_ h.verdicts
    split
    · exact .of_pc (s.goto_pc t _) hcount (by simp) hown.holder (by simp) (by simp)
    · exact .of_pc (s.goto_pc t _) hcount (by simp) hown.holder (by simp) (by simp)
  | setHolder =>
    cases hstep
    refine h.ofOwner hheld rfl (hne _) ?_ h.verdicts
    exact .of_pc (CoreState.goto_pc ..) hcount (by simp) (.inr rfl) (by simp) (by simp)
  | loadInc =>
    cases hstep
    refine h.ofOwner hheld rfl (hne _) ?_ h.verdicts
    refine .of_pc (s.goto_pc t _) hcount ?_ hown.holder (by simp) (by simp)
    rintro v (hv | hv)
    all_goals
      cases hv
    rfl
  | storeInc v =>
    cases hstep
    refine h.ofOwner hheld rfl (hne _) ?_ h.verdicts
    refine .outside (by simp) ?_ hown.holder
    have hv := hown.loaded v (.inl hpc)
    show v + 1 = BitVec.ofNat 8 (n + 1)
    rw [hv, hcount]
    exact (BitVec.ofNat_add ..).symm
  | loadDec =>
    cases hstep
    refine h.ofOwner hheld rfl (hne _) ?_ h.verdicts
    refine .of_pc (s.goto_pc t _) hcount ?_ hown.holder (by simp) (by simp)
    rintro v (hv | hv)
    all_goals
      cases hv
    rfl
  | storeDec v =>
    cases hstep
    refine h.ofOwner hheld rfl (hne _) ?_ h.verdicts
    refine .of_pc (CoreState.goto_pc ..) ?_ (by simp) hown.holder (by simp) (by simp)
    have hv := hown.loaded v (.inr hpc)
    have hnext : s.count = BitVec.ofNat 8 n + 1#8 := hcount.trans (BitVec.ofNat_add ..)
    show v - 1 = BitVec.ofNat 8 n
    rw [hv, hnext]
    exact BitVec.add_sub_cancel ..
  | testLast =>
    obtain rfl := Option.some.inj hstep
    refine h.ofOwner hheld rfl (hne _) ?_ h.verdicts
    split
    next hzero =>
      exact .of_pc (s.goto_pc t _) hcount (by simp) hown.holder (fun _ => hzero) (by simp)
    next hzero =>
      exact .of_pc (s.goto_pc t _) hcount (by simp) hown.holder (by simp)
        fun _ hz => absurd hz hzero
  | clearHolder =>
    cases hstep
    refine h.ofOwner hheld rfl (hne _) ?_ h.verdicts
    exact .of_pc (CoreState.goto_pc ..) hcount (by simp) (.inl rfl) (by simp) fun _ _ => rfl
  | readCount =>
    cases hstep
    refine h.ofOwner hheld rfl (hne _) ?_ (h.verdicts_verdict fun _ _ => h.inside t _ hpc rfl)
    exact .outside (by simp) hcount hown.holder
  | give => exact absurd rfl hst
  | take | setThread | testThread | readHolder => cases hin

/-- The handle names the owner of the mutex, if anyone. -/
theorem owner_of_holder {s : CoreState τ} {t : τ} (h : CoreInv s) (ht : s.holder = some t) :
    ∃ n, s.mutex = .held t n := by
  cases hm : s.mutex with
  | free =>
    rw [(h.free hm).2] at ht
    cases ht
  | held u n =>
    rcases (h.owner u n hm).holder with hnone | hsome
    · rw [ht] at hnone
      cases hnone
    · cases ht.symm.trans hsome
      exact ⟨n, rfl⟩

theorem depth_of_holder {s : CoreState τ} {t : τ} (h : CoreInv s) (ht : s.holder = some t) :
    0 < s.mutex.depth t :=
  RecLock.depth_pos.mpr (h.owner_of_holder ht)

/-- `current_thread == lwip_core_lock_holder_thread`: if it is, then `t` has the mutex. -/
theorem readHolder {s : CoreState τ} {t : τ} (h : CoreInv s) (hpc : s.pc t = some .readHolder) :
    CoreInv (if s.holder = some t then s.goto t .readCount else s.assert t false) := by
  have houtside : ∀ st, s.pc t = some st → st.inside = false := by
    intro st hst
    cases hpc.symm.trans hst
    rfl
  split
  next hholder =>
    obtain ⟨n, hm⟩ := h.owner_of_holder hholder
    have hown := h.owner t n hm
    have hcount := hown.count
    rw [hpc] at hcount
    refine h.ofOwner hm rfl (fun _ hu => Function.update_of_ne hu ..) ?_ h.verdicts
    exact .of_pc (s.goto_pc t _) hcount (by simp) hown.holder (by simp) (by simp)
  next =>
    exact h.ofOutside rfl rfl rfl (fun _ hu => Function.update_of_ne hu ..) houtside (by simp)
      (h.verdicts_verdict (by simp))

theorem statement {s s' : CoreState τ} {t : τ} {st : CoreStmt} (h : CoreInv s)
    (hpc : s.pc t = some st) (hstep : s.statement t st = some s') : CoreInv s' := by
  have houtside : st.inside = false → ∀ st', s.pc t = some st' → st'.inside = false := by
    intro hin st' hst'
    rw [hpc, Option.some.injEq] at hst'
    rw [← hst', hin]
  cases st with
  | take =>
    obtain ⟨m, hm, rfl⟩ := Option.map_eq_some_iff.mp hstep
    exact h.ofTake hpc hm
  | give =>
    cases hstep
    exact h.ofGive hpc
  | setThread =>
    cases hstep
    exact h.ofOutside rfl rfl rfl (fun _ hu => Function.update_of_ne hu ..) (houtside rfl) (by simp)
      h.verdicts
  | testThread =>
    obtain rfl := Option.some.inj hstep
    split
    · exact h.goto (houtside rfl) rfl
    · exact h.ofOutside rfl rfl rfl (fun _ hu => Function.update_of_ne hu ..) (houtside rfl)
        (by simp) (h.verdicts_verdict (by simp))
  | readHolder =>
    obtain rfl := Option.some.inj hstep
    exact h.readHolder hpc
  | _ => exact h.critical hpc rfl (by simp) hstep

/-- A call of one of the four functions. -/
theorem call {s : CoreState τ} {t : τ} {f : CoreFn} (h : CoreInv s) (hpc : s.pc t = none)
    (hpaired : CoreAct.Paired s (.call t f)) : CoreInv (s.goto t f.entry) := by
  cases f with
  | lock | mark | check => exact h.goto (by simp [hpc]) rfl
  | unlock =>
    obtain ⟨n, hheld⟩ := RecLock.depth_pos.mp hpaired
    have hown := h.owner t n hheld
    have hcount := hown.count
    rw [hpc] at hcount
    refine h.ofOwner hheld rfl (fun _ hu => Function.update_of_ne hu ..) ?_ h.verdicts
    exact .of_pc (s.goto_pc t _) hcount (by simp [CoreFn.entry]) hown.holder
      (by simp [CoreFn.entry]) (by simp [CoreFn.entry])

theorem step {s s' : CoreState τ} {a : CoreAct τ} (h : CoreInv s) (hpaired : a.Paired s)
    (hstep : coreStep s a = some s') : CoreInv s' := by
  cases a with
  | call t f =>
    obtain ⟨hpc, heq⟩ := Option.ite_none_right_eq_some.mp hstep
    cases heq
    exact h.call hpc hpaired
  | run t =>
    obtain ⟨st, hpc, hstep⟩ := Option.bind_eq_some_iff.mp hstep
    exact h.statement hpc hstep

end CoreInv

/-! ## Before and after the mark -/

/-- The statements of an assertion that is under way. -/
def CoreStmt.asserting : CoreStmt → Bool
  | .readHolder | .readCount => true
  | _ => false

/-- No statement takes the mark away. -/
theorem thread_statement {s s' : CoreState τ} {t : τ} {st : CoreStmt}
    (hstep : s.statement t st = some s') (h : s.thread.isSome = true) :
    s'.thread.isSome = true := by
  cases st with
  | take =>
    obtain ⟨m, -, rfl⟩ := Option.map_eq_some_iff.mp hstep
    exact h
  | testThread | readHolder =>
    obtain rfl := Option.some.inj hstep
    split
    · exact h
    · exact h
  | setThread =>
    cases hstep
    rfl
  | _ =>
    cases hstep
    exact h

/-- A check ends with an assertion that was under way, or, where no thread is marked, passes
    without one. -/
theorem verdicts_statement {s s' : CoreState τ} {t : τ} {st : CoreStmt}
    (hstep : s.statement t st = some s') :
    s'.verdicts = s.verdicts ∨ ∃ v, s'.verdicts = s.verdicts ++ [v] ∧
      (st.asserting = true ∧ v.asserted = true ∨
        s.thread = none ∧ v.asserted = false ∧ v.passed = true) := by
  cases st with
  | take =>
    obtain ⟨m, -, rfl⟩ := Option.map_eq_some_iff.mp hstep
    exact .inl rfl
  | testThread =>
    obtain rfl := Option.some.inj hstep
    split
    next => exact .inl rfl
    next hnone => exact .inr ⟨_, rfl, .inr ⟨by simpa using hnone, rfl, rfl⟩⟩
  | readHolder =>
    obtain rfl := Option.some.inj hstep
    split
    · exact .inl rfl
    · exact .inr ⟨_, rfl, .inl ⟨rfl, rfl⟩⟩
  | readCount =>
    cases hstep
    exact .inr ⟨_, rfl, .inl ⟨rfl, rfl⟩⟩
  | _ =>
    cases hstep
    exact .inl rfl

/-- An assertion starts only where a thread is marked. -/
theorem asserting_statement {s s' : CoreState τ} {t : τ} {st st' : CoreStmt}
    (hstep : s.statement t st = some s') (hpc : s'.pc t = some st')
    (h : st'.asserting = true) : st.asserting = true ∨ s.thread.isSome = true := by
  cases st with
  | take =>
    obtain ⟨m, -, rfl⟩ := Option.map_eq_some_iff.mp hstep
    rw [CoreState.goto_pc] at hpc
    cases hpc
    cases h
  | testFirst | testLast =>
    obtain rfl := Option.some.inj hstep
    rw [CoreState.goto_pc] at hpc
    obtain rfl := Option.some.inj hpc
    split at h <;> cases h
  | testThread =>
    obtain rfl := Option.some.inj hstep
    split at hpc
    next hmark => exact .inr hmark
    next => simp at hpc
  | readHolder | readCount => exact .inl rfl
  | _ =>
    cases hstep
    first
      | (rw [CoreState.goto_pc] at hpc; cases hpc; cases h)
      | simp at hpc

/-- Elsewhere a statement leaves the tasks where they are. -/
theorem pc_statement {s s' : CoreState τ} {t u : τ} {st : CoreStmt}
    (hstep : s.statement t st = some s') (hu : u ≠ t) : s'.pc u = s.pc u := by
  cases st with
  | take =>
    obtain ⟨m, -, rfl⟩ := Option.map_eq_some_iff.mp hstep
    exact Function.update_of_ne hu ..
  | testThread | readHolder =>
    obtain rfl := Option.some.inj hstep
    split
    · exact Function.update_of_ne hu ..
    · exact Function.update_of_ne hu ..
  | _ =>
    cases hstep
    exact Function.update_of_ne hu ..

/-- What the mark says of the checks. -/
structure MarkInv (s : CoreState τ) : Prop where
  asserting : ∀ t st, s.pc t = some st → st.asserting = true → s.thread.isSome = true
  unmarked : s.thread = none → ∀ v ∈ s.verdicts, v.asserted = false ∧ v.passed = true

omit [DecidableEq τ] in
theorem MarkInv.init : MarkInv (.init : CoreState τ) where
  asserting := fun _ _ h => by cases h
  unmarked := fun _ _ h => by cases h

theorem MarkInv.step {s s' : CoreState τ} {a : CoreAct τ} (h : MarkInv s)
    (hstep : coreStep s a = some s') : MarkInv s' := by
  cases a with
  | call t f =>
    obtain ⟨-, heq⟩ := Option.ite_none_right_eq_some.mp hstep
    cases heq
    refine ⟨fun u st hu hst => ?_, h.unmarked⟩
    by_cases hut : u = t
    · rw [hut, CoreState.goto_pc] at hu
      cases hu
      cases f <;> cases hst
    · exact h.asserting u st (by simpa [CoreState.goto, hut] using hu) hst
  | run t =>
    obtain ⟨st, hpc, hstep⟩ := Option.bind_eq_some_iff.mp hstep
    refine ⟨fun u st' hu hst' => ?_, fun hnone => ?_⟩
    · apply thread_statement hstep
      by_cases hut : u = t
      · rcases asserting_statement hstep (hut ▸ hu) hst' with hst | hmark
        · exact h.asserting t st hpc hst
        · exact hmark
      · exact h.asserting u st' (pc_statement hstep hut ▸ hu) hst'
    · have hs : s.thread = none := by
        by_contra hmark
        have hmark' := thread_statement hstep (Option.isSome_iff_ne_none.mpr hmark)
        rw [hnone] at hmark'
        cases hmark'
      rcases verdicts_statement hstep with hv | ⟨v, hv, ⟨hst, -⟩ | ⟨-, hva, hvp⟩⟩
      · rw [hv]
        exact h.unmarked hs
      · have hmark := h.asserting t st hpc hst
        rw [hs] at hmark
        cases hmark
      · rw [hv]
        intro w hw
        rcases List.mem_append.mp hw with hold | hnew
        · exact h.unmarked hs w hold
        · cases List.mem_singleton.mp hnew
          exact ⟨hva, hvp⟩

/-- **After the mark** every check is an assertion. -/
theorem exec_marked {s u : CoreState τ} {bs : List (CoreAct τ)}
    (hrun : exec coreStep s bs = some u) (hmark : s.thread.isSome = true) :
    ∀ v ∈ u.verdicts.drop s.verdicts.length, v.asserted = true := by
  have hnew : u.thread.isSome = true ∧ ∃ new, u.verdicts = s.verdicts ++ new ∧
      ∀ v ∈ new, v.asserted = true := by
    refine exec_invariant (I := fun u => u.thread.isSome = true ∧ ∃ new,
      u.verdicts = s.verdicts ++ new ∧ ∀ v ∈ new, v.asserted = true)
      ⟨hmark, [], (List.append_nil _).symm, fun _ h => by cases h⟩ ?_ hrun
    rintro u a w ⟨hmark, new, hu, hnew⟩ hstep
    cases a with
    | call t f =>
      obtain ⟨-, heq⟩ := Option.ite_none_right_eq_some.mp hstep
      cases heq
      exact ⟨hmark, new, hu, hnew⟩
    | run t =>
      obtain ⟨st, -, hstep⟩ := Option.bind_eq_some_iff.mp hstep
      refine ⟨thread_statement hstep hmark, ?_⟩
      rcases verdicts_statement hstep with hv | ⟨v, hv, ⟨-, hva⟩ | ⟨hnone, -⟩⟩
      · exact ⟨new, hv.trans hu, hnew⟩
      · refine ⟨new ++ [v], by rw [hv, hu, List.append_assoc], fun x hx => ?_⟩
        rcases List.mem_append.mp hx with hold | hlast
        · exact hnew x hold
        · cases List.mem_singleton.mp hlast
          exact hva
      · rw [hnone] at hmark
        cases hmark
  obtain ⟨-, new, hu, hnew⟩ := hnew
  rw [hu, List.drop_left]
  exact hnew

/-! ## Every run -/

/-- **A check that passes is right, once a thread is marked.** For any number of tasks, whatever
    the interleaving of their statements and however deep they nest the lock, as long as each
    gives it only while it has it: from the moment that `sys_mark_tcpip_thread` has set the
    handle, every run of `sys_check_core_locking` comes to its assertion and never passes for a
    task that does not have the lock; before that moment every one passes. At every moment the
    holder's handle names only a task that has the lock, and a lock that nobody has leaves no
    trace in the two variables. -/
theorem core_check_sound (as bs : List (CoreAct τ)) (s u : CoreState τ)
    (hrun : exec coreStep .init as = some s) (hrun' : exec coreStep s bs = some u)
    (hpaired : OnRun coreStep (fun s a => a.Paired s) .init (as ++ bs)) :
    (s.thread.isSome = true → ∀ v ∈ u.verdicts.drop s.verdicts.length,
      v.asserted = true ∧ (v.passed = true → 0 < v.depth)) ∧
    (u.thread = none → ∀ v ∈ u.verdicts, v.asserted = false ∧ v.passed = true) ∧
    (∀ t, u.holder = some t → 0 < u.mutex.depth t) ∧
    (u.mutex = .free → u.count = 0 ∧ u.holder = none) := by
  have hwhole := exec_trans hrun hrun'
  have hi : CoreInv u :=
    hpaired.invariant CoreInv.init (fun _ _ _ h hp hstep => h.step hp hstep) hwhole
  have hm : MarkInv u := exec_invariant MarkInv.init (fun _ _ _ h hs => h.step hs) hwhole
  refine ⟨fun hmark v hv => ?_, hm.unmarked, fun t ht => hi.depth_of_holder ht, hi.free⟩
  have hasserted := exec_marked hrun' hmark v hv
  exact ⟨hasserted, hi.verdicts v (List.mem_of_mem_drop hv) hasserted⟩

/-- Task 1 has checked, and passed, before task 0 was marked. -/
def checkedThenMarked : CoreState Nat :=
  (exec coreStep .init [.call 1 .check, .run 1, .call 0 .mark, .run 0]).get (by decide +kernel)

/-- Then both check: task 0 inside the lock, and task 1 while the other is half way through
    giving it. -/
theorem core_check_sound_pair :
    checkedThenMarked.verdicts = [⟨1, false, true, 0⟩] ∧
      ∃ u, exec coreStep checkedThenMarked
        [.call 0 .lock, .run 0, .run 0, .run 0, .run 0, .run 0, .call 0 .check, .run 0, .run 0,
          .run 0, .call 0 .unlock, .run 0, .run 0, .call 1 .check, .run 1, .run 1] = some u ∧
      u.verdicts.drop 1 = [⟨0, true, true, 1⟩, ⟨1, true, false, 0⟩] ∧
      ∀ v ∈ u.verdicts.drop 1, v.asserted = true ∧ (v.passed = true → 0 < v.depth) := by
  refine ⟨by decide +kernel, ?_⟩
  apply exists_exec (fun u => u.verdicts.drop 1 == [⟨0, true, true, 1⟩, ⟨1, true, false, 0⟩])
    (by decide +kernel)
  intro u hrun hv
  have hinit : exec coreStep .init [.call 1 .check, .run 1, .call 0 .mark, .run 0] =
      some checkedThenMarked := (Option.some_get _).symm
  have hmark : checkedThenMarked.thread.isSome = true := by decide +kernel
  exact ⟨by simpa using hv,
    (core_check_sound _ _ _ _ hinit hrun (by decide +kernel)).1 hmark⟩

end EthernetIf
