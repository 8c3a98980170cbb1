import EthernetIf.Sys.Core

/-!
# How deep the core lock may be nested

`lwip_core_lock_count` is a `u8_t`. At the 256th nested take it is zero again, so the owner
fails `lwip_core_lock_count > 0`. Up to the 255th the two variables say exactly what the mutex
says, and a check that fails is right too.
-/

namespace EthernetIf

open Lts

variable {τ : Type} [DecidableEq τ]

/-- `sys_lock_tcpip_core` is called only by a task that has the lock fewer than `D` times. -/
def CoreAct.Nested (D : Nat) (s : CoreState τ) : CoreAct τ → Prop
  | .call t .lock => s.mutex.depth t < D
  | _ => True

instance CoreAct.decidableNested (D : Nat) (s : CoreState τ) (a : CoreAct τ) :
    Decidable (a.Nested D s) :=
  match a with
  | .call t .lock => inferInstanceAs (Decidable (s.mutex.depth t < D))
  | .call _ .unlock | .call _ .mark | .call _ .check | .run _ => .isTrue trivial

/-! ## Up to the width of the counter -/

/-- Where the handle names the task that has the mutex `n + 1` times: everywhere but in the
    first take before `setHolder` and in the last give after `clearHolder`. -/
def named (n : Nat) : Option CoreStmt → Bool
  | some .setHolder => false
  | some .testFirst | some .give => n != 0
  | _ => true

structure ExactOwner (D : Nat) (s : CoreState τ) (t : τ) (n : Nat) : Prop where
  lt : n < D
  holder : named n (s.pc t) = true → s.holder = some t
  last : s.pc t = some .clearHolder → n = 0

structure ExactInv (D : Nat) (s : CoreState τ) : Prop where
  owner : ∀ t n, s.mutex = .held t n → ExactOwner D s t n
  waiting : ∀ t, s.pc t = some .take → s.mutex.depth t < D
  verdicts : ∀ v ∈ s.verdicts, 0 < v.depth → v.passed = true

omit [DecidableEq τ] in
theorem ExactOwner.of_pc {D : Nat} {s : CoreState τ} {t : τ} {n : Nat} {o : Option CoreStmt}
    (hpc : s.pc t = o) (hlt : n < D) (hholder : named n o = true → s.holder = some t)
    (hlast : o = some .clearHolder → n = 0) : ExactOwner D s t n := by
  subst hpc
  exact ⟨hlt, hholder, hlast⟩

/-- Up to 255 the counter is zero only where it counts nothing. -/
theorem count_eq_zero {n : Nat} (hn : n < 256) : BitVec.ofNat 8 n = 0 ↔ n = 0 := by
  rw [← BitVec.toNat_inj]
  simp only [BitVec.toNat_ofNat, BitVec.ofNat_eq_ofNat]
  omega

namespace ExactInv

variable {D : Nat}

theorem init : ExactInv D (.init : CoreState τ) where
  owner := fun _ _ h => by cases h
  waiting := fun _ h => by cases h
  verdicts := fun _ h => by cases h

/-- A statement of `t` that leaves the mutex alone. -/
theorem move {s s' : CoreState τ} {t : τ} (h : ExactInv D s) (hm : s'.mutex = s.mutex)
    (hpc : ∀ u, u ≠ t → s'.pc u = s.pc u)
    (howner : ∀ n, s.mutex = .held t n → ExactOwner D s' t n)
    (hholder : s.mutex.depth t = 0 → s'.holder = s.holder)
    (hwait : s'.pc t = some .take → s.mutex.depth t < D)
    (hv : ∀ v ∈ s'.verdicts, 0 < v.depth → v.passed = true) : ExactInv D s' where
  owner := fun u n hu => by
    rw [hm] at hu
    by_cases hut : u = t
    · rw [hut] at hu ⊢
      exact howner n hu
    · have hold := h.owner u n hu
      refine .of_pc (hpc u hut) hold.lt (fun hn => ?_) hold.last
      rw [hholder (by rw [hu, RecLock.depth_held_ne hut])]
      exact hold.holder hn
  waiting := fun u hu => by
    rw [hm]
    by_cases hut : u = t
    · rw [hut] at hu ⊢
      exact hwait hu
    · exact h.waiting u (hpc u hut ▸ hu)
  verdicts := hv

/-- Outside the critical statements the handle names the owner, before and after. -/
theorem outside {s s' : CoreState τ} {t : τ} {o : Option CoreStmt} (h : ExactInv D s)
    (hm : s'.mutex = s.mutex) (hholder : s'.holder = s.holder)
    (hpc : ∀ u, u ≠ t → s'.pc u = s.pc u) (hbefore : ∀ n, named n (s.pc t) = true)
    (hafter : s'.pc t = o) (ho : o ≠ some .clearHolder) (hwait : o ≠ some .take)
    (hv : ∀ v ∈ s'.verdicts, 0 < v.depth → v.passed = true) : ExactInv D s' := by
  refine h.move hm hpc (fun n hn => ?_) (fun _ => hholder)
    (fun ht => absurd (hafter.symm.trans ht) hwait) hv
  have hown := h.owner t n hn
  refine .of_pc hafter hown.lt (fun _ => ?_) (fun hc => absurd hc ho)
  rw [hholder]
  exact hown.holder (hbefore n)

/-- A check that passes, or that is made without the mutex. -/
theorem verdicts_verdict {s : CoreState τ} {t : τ} {a b : Bool} (h : ExactInv D s)
    (hb : 0 < s.mutex.depth t → b = true) :
    ∀ v ∈ (s.verdict t a b).verdicts, 0 < v.depth → v.passed = true := by
  intro v hv hdepth
  rcases List.mem_append.mp hv with hold | hnew
  · exact h.verdicts v hold hdepth
  · cases List.mem_singleton.mp hnew
    exact hb hdepth

theorem take {s : CoreState τ} {t : τ} {m : RecLock τ} (h : ExactInv D s)
    (hpc : s.pc t = some .take) (hm : s.mutex.take t = some m) :
    ExactInv D (CoreState.goto { s with mutex := m } t .testFirst) where
  owner := fun u n hu => by
    have hwait := h.waiting t hpc
    rcases RecLock.take_cases hm with ⟨hfree, rfl⟩ | ⟨k, hheld, rfl⟩
    · cases hu
      rw [hfree] at hwait
      exact .of_pc (CoreState.goto_pc ..) hwait (by simp [named]) (by simp)
    · cases hu
      rw [hheld, RecLock.depth_held] at hwait
      have hown := h.owner t k hheld
      exact .of_pc (CoreState.goto_pc ..) hwait (fun _ => hown.holder (by rw [hpc]; rfl)) (by simp)
  waiting := fun u hu => by
    by_cases hut : u = t
    · rw [hut] at hu
      simp at hu
    · show m.depth u < D
      rw [RecLock.depth_take_ne hm (Ne.symm hut)]
      exact h.waiting u (by simpa [CoreState.goto, hut] using hu)
  verdicts := h.verdicts

theorem give {s : CoreState τ} {t : τ} {n : Nat} (h : ExactInv D s) (hpc : s.pc t = some .give)
    (hheld : s.mutex = .held t n) :
    ExactInv D (CoreState.ret { s with mutex := (s.mutex.give t).getD s.mutex } t) := by
  have hown := h.owner t n hheld
  have hwaiting : ∀ m : RecLock τ, s.mutex.give t = some m →
      ∀ u, (CoreState.ret { s with mutex := m } t).pc u = some .take → m.depth u < D := by
    intro m hm u hu
    by_cases hut : u = t
    · rw [hut] at hu
      simp at hu
    · rw [RecLock.depth_give_ne hm (Ne.symm hut)]
      exact h.waiting u (by simpa [CoreState.ret, hut] using hu)
  cases n with
  | zero =>
    have hm : s.mutex.give t = some .free := by rw [hheld, RecLock.give_held_zero]
    rw [hm]
    exact ⟨fun u k hu => (by cases hu), hwaiting _ hm, h.verdicts⟩
  | succ n =>
    have hm : s.mutex.give t = some (.held t n) := by rw [hheld, RecLock.give_held_succ]
    rw [hm]
    refine ⟨fun u k hu => ?_, hwaiting _ hm, h.verdicts⟩
    cases hu
    refine .of_pc (CoreState.ret_pc ..) (Nat.lt_of_succ_lt hown.lt) (fun _ => ?_) (by simp)
    exact hown.holder (by rw [hpc]; rfl)

/-- A statement of the owner, and a check by whoever makes it. -/
theorem statement {s s' : CoreState τ} {t : τ} {st : CoreStmt} (hD : D < 256) (hi : CoreInv s)
    (h : ExactInv D s) (hpc : s.pc t = some st) (hstep : s.statement t st = some s') :
    ExactInv D s' := by
  have hne : ∀ o u, u ≠ t → Function.update s.pc t o u = s.pc u := by
    intro o u hu
    exact Function.update_of_ne hu ..
  cases st with
  | take =>
    obtain ⟨m, hm, rfl⟩ := Option.map_eq_some_iff.mp hstep
    exact h.take hpc hm
  | give =>
    cases hstep
    obtain ⟨n, hheld⟩ := RecLock.depth_pos.mp (hi.inside t _ hpc rfl)
    exact h.give hpc hheld
  | testFirst =>
    obtain rfl := Option.some.inj hstep
    refine h.move rfl (hne _) (fun n hn => ?_) (fun _ => rfl) (by split <;> simp) h.verdicts
    have hcount := (hi.owner t n hn).count
    have hown := h.owner t n hn
    rw [hpc] at hcount
    split
    next => exact .of_pc (s.goto_pc t _) hown.lt (by simp [named]) (by simp)
    next hzero =>
      refine .of_pc (s.goto_pc t _) hown.lt (fun _ => hown.holder ?_) (by simp)
      rw [hpc, named, bne_iff_ne]
      rintro rfl
      exact hzero hcount
  | setHolder =>
    cases hstep
    have hpos := hi.inside t _ hpc rfl
    refine h.move rfl (hne _) (fun n hn => ?_) (fun hz => absurd hz (Nat.ne_of_gt hpos))
      (by simp) h.verdicts
    exact .of_pc (CoreState.goto_pc ..) (h.owner t n hn).lt (fun _ => rfl) (by simp)
  | loadInc | storeInc | loadDec | storeDec | setThread =>
    cases hstep
    exact h.outside rfl rfl (hne _) (by simp [hpc, named]) rfl (by simp) (by simp) h.verdicts
  | testLast =>
    obtain rfl := Option.some.inj hstep
    refine h.move rfl (hne _) (fun n hn => ?_) (fun _ => rfl) (by split <;> simp) h.verdicts
    have hcount := (hi.owner t n hn).count
    have hown := h.owner t n hn
    rw [hpc] at hcount
    have hholder := hown.holder (by rw [hpc]; rfl)
    split
    next hzero =>
      refine .of_pc (s.goto_pc t _) hown.lt (fun _ => hholder) (fun _ => ?_)
      exact (count_eq_zero (by have := hown.lt; omega)).mp (hcount.symm.trans hzero)
    next => exact .of_pc (s.goto_pc t _) hown.lt (fun _ => hholder) (by simp)
  | clearHolder =>
    cases hstep
    have hpos := hi.inside t _ hpc rfl
    refine h.move rfl (hne _) (fun n hn => ?_) (fun hz => absurd hz (Nat.ne_of_gt hpos))
      (by simp) h.verdicts
    have hown := h.owner t n hn
    refine .of_pc (CoreState.goto_pc ..) hown.lt (fun hn => ?_) (by simp)
    rw [hown.last hpc] at hn
    cases hn
  | testThread =>
    obtain rfl := Option.some.inj hstep
    split
    · exact h.outside rfl rfl (hne _) (by simp [hpc, named]) (s.goto_pc t _) (by simp) (by simp)
        h.verdicts
    · exact h.outside rfl rfl (hne _) (by simp [hpc, named]) (s.verdict_pc t _ _) (by simp)
        (by simp) (h.verdicts_verdict fun _ => rfl)
  | readHolder =>
    obtain rfl := Option.some.inj hstep
    split
    next =>
      exact h.outside rfl rfl (hne _) (by simp [hpc, named]) (s.goto_pc t _) (by simp) (by simp)
        h.verdicts
    next hholder =>
      refine h.outside rfl rfl (hne _) (by simp [hpc, named]) (s.assert_pc t _) (by simp)
        (by simp) (h.verdicts_verdict fun hpos => ?_)
      obtain ⟨n, hheld⟩ := RecLock.depth_pos.mp hpos
      exact absurd ((h.owner t n hheld).holder (by rw [hpc]; rfl)) hholder
  | readCount =>
    cases hstep
    refine h.outside rfl rfl (hne _) (by simp [hpc, named]) (s.assert_pc t _) (by simp)
      (by simp) (h.verdicts_verdict fun hpos => ?_)
    obtain ⟨n, hheld⟩ := RecLock.depth_pos.mp hpos
    have hcount := (hi.owner t n hheld).count
    have hlt := (h.owner t n hheld).lt
    rw [hpc] at hcount
    have hne : s.count ≠ 0 := by
      intro hzero
      have := (count_eq_zero (n := n + 1) (by omega)).mp (hcount.symm.trans hzero)
      cases this
    exact decide_eq_true ((BitVec.pos_iff_ne_zero _).mpr hne)

theorem step {s s' : CoreState τ} {a : CoreAct τ} (hD : D < 256) (hi : CoreInv s)
    (h : ExactInv D s) (hnested : a.Nested D s) (hstep : coreStep s a = some s') :
    ExactInv D s' := by
  cases a with
  | run t =>
    obtain ⟨st, hpc, hstep⟩ := Option.bind_eq_some_iff.mp hstep
    exact h.statement hD hi hpc hstep
  | call t f =>
    obtain ⟨hpc, heq⟩ := Option.ite_none_right_eq_some.mp hstep
    cases heq
    have hne : ∀ u, u ≠ t → (s.goto t f.entry).pc u = s.pc u := by
      intro u hu
      exact Function.update_of_ne hu ..
    cases f with
    | lock =>
      refine h.move rfl hne (fun n hn => ?_) (fun _ => rfl) (fun _ => hnested) h.verdicts
      have hown := h.owner t n hn
      exact .of_pc (s.goto_pc t _) hown.lt (fun _ => hown.holder (by rw [hpc]; rfl))
        (by simp [CoreFn.entry])
    | unlock | mark | check =>
      exact h.outside rfl rfl hne (by simp [hpc, named]) (s.goto_pc t _) (by simp [CoreFn.entry])
        (by simp [CoreFn.entry]) h.verdicts

end ExactInv

/-! ## At the width of the counter -/

/-- Only the call is under a condition, not the statements that follow. -/
theorem onRun_call {D : Nat} {s : CoreState τ} {t : τ} {f : CoreFn}
    (hf : (CoreAct.call t f).Paired s ∧ (CoreAct.call t f).Nested D s) (n : Nat) :
    OnRun coreStep (fun s a => a.Paired s ∧ a.Nested D s) s
      (.call t f :: List.replicate n (.run t)) := by
  have hruns : ∀ u, OnRun coreStep (fun s a => a.Paired s ∧ a.Nested D s) u
      (List.replicate n (.run t)) := by
    induction n with
    | zero => exact fun _ => trivial
    | succ n ih => exact fun _ => ⟨⟨trivial, trivial⟩, fun v _ => ih v⟩
  exact ⟨hf, fun u _ => hruns u⟩

/-- Task `t`, alone, inside `k + 1` nested takes. -/
def CoreState.deep (t : τ) (k : Nat) : CoreState τ :=
  { mutex := .held t k, count := BitVec.ofNat 8 (k + 1), holder := some t, thread := some t,
    pc := fun _ => none, verdicts := [] }

/-- One more `sys_lock_tcpip_core`, while the counter is not zero. -/
theorem lock_deep (t : τ) {k : Nat} (hk : k + 1 < 256) :
    exec coreStep (CoreState.deep t k) (.call t .lock :: List.replicate 4 (.run t)) =
      some (CoreState.deep t (k + 1)) := by
  have hne : BitVec.ofNat 8 (k + 1) ≠ 0#8 := fun h => by cases (count_eq_zero hk).mp h
  simp [exec_cons, coreStep, CoreState.deep, CoreState.goto, CoreState.ret, CoreFn.entry,
    CoreState.statement, RecLock.take, List.replicate, hne]
  exact (BitVec.ofNat_add ..).symm

/-- It gets as deep as it may. -/
theorem exists_deep (t : τ) {D k : Nat} (hk : k < 256) (hD : k < D) :
    ∃ as, exec coreStep .init as = some (CoreState.deep t k) ∧
      OnRun coreStep (fun s a => a.Paired s ∧ a.Nested D s) .init as := by
  induction k with
  | zero =>
    have hmark : exec coreStep .init (.call t .mark :: List.replicate 1 (.run t)) =
        some { (.init : CoreState τ) with thread := some t } := by
      simp [exec_cons, coreStep, CoreState.init, CoreState.goto, CoreState.ret, CoreFn.entry,
        CoreState.statement, List.replicate]
    have hlock : exec coreStep { (.init : CoreState τ) with thread := some t }
        (.call t .lock :: List.replicate 5 (.run t)) = some (CoreState.deep t 0) := by
      simp [exec_cons, coreStep, CoreState.deep, CoreState.init, CoreState.goto, CoreState.ret,
        CoreFn.entry, CoreState.statement, RecLock.take, List.replicate]
    exact ⟨_, exec_trans hmark hlock,
      (onRun_append hmark).mpr ⟨onRun_call (by exact ⟨trivial, trivial⟩) 1,
        onRun_call (by exact ⟨trivial, hD⟩) 5⟩⟩
  | succ k ih =>
    obtain ⟨as, hrun, hon⟩ := ih (Nat.lt_of_succ_lt hk) (Nat.lt_of_succ_lt hD)
    refine ⟨_, exec_trans hrun (lock_deep t hk), (onRun_append hrun).mpr ⟨hon, ?_⟩⟩
    apply onRun_call
    exact ⟨trivial, by simpa [CoreAct.Nested, CoreState.deep] using hD⟩

/-- The check of a task that has the lock 256 times. -/
theorem check_deep (t : τ) :
    ∃ s, exec coreStep (CoreState.deep t 255) (.call t .check :: List.replicate 3 (.run t)) =
      some s ∧ s.verdicts = [⟨t, true, false, 256⟩] := by
  refine ⟨CoreState.assert (CoreState.deep t 255) t false, ?_, ?_⟩
  · simp [exec_cons, coreStep, CoreState.deep, CoreState.goto, CoreState.ret, CoreFn.entry,
      CoreState.statement, CoreState.assert, CoreState.verdict, List.replicate]
  · simp [CoreState.assert, CoreState.verdict, CoreState.deep, CoreState.ret]

/-- **The check is exact up to 255 nested takes, and no further.** With the lock given only by
    a task that has it and nested at most `D` deep: in every run of every number of tasks, once
    a thread is marked, `sys_check_core_locking` passes exactly for the tasks that have the lock,
    if and only if `D ≤ 255`. -/
theorem core_check_exact_iff [Inhabited τ] (D : Nat) :
    (∀ as bs (s u : CoreState τ), exec coreStep .init as = some s →
      s.thread.isSome = true → exec coreStep s bs = some u →
      OnRun coreStep (fun s a => a.Paired s ∧ a.Nested D s) .init (as ++ bs) →
      ∀ v ∈ u.verdicts.drop s.verdicts.length, (v.passed = true ↔ 0 < v.depth)) ↔ D ≤ 255 := by
  constructor
  · intro hexact
    by_contra hD
    obtain ⟨as, hrun, hon⟩ := exists_deep (default : τ) (D := D) (k := 255) (by omega) (by omega)
    obtain ⟨s, hcheck, hv⟩ := check_deep (default : τ)
    have hpass := hexact _ _ _ s hrun rfl hcheck
      ((onRun_append hrun).mpr ⟨hon, onRun_call (by exact ⟨trivial, trivial⟩) 3⟩) _
      (by rw [hv]; exact List.mem_singleton.mpr rfl)
    cases hpass.mpr (Nat.succ_pos 255)
  · intro hD as bs s u hrun hmark hrun' hon
    have hboth : CoreInv u ∧ ExactInv D u := by
      refine hon.invariant (I := fun s => CoreInv s ∧ ExactInv D s) ⟨.init, .init⟩ ?_
        (exec_trans hrun hrun')
      rintro s a s' ⟨hi, he⟩ ⟨hpaired, hnested⟩ hstep
      exact ⟨hi.step hpaired hstep, he.step (by omega) hi hnested hstep⟩
    intro v hv
    have hmem := List.mem_of_mem_drop hv
    have hasserted := exec_marked hrun' hmark v hv
    exact ⟨hboth.1.verdicts v hmem hasserted, hboth.2.verdicts v hmem⟩

end EthernetIf
