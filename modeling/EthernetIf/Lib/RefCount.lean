import Mathlib.Algebra.BigOperators.Group.Finset.Piecewise
import Mathlib.Algebra.GroupWithZero.Nat
import Mathlib.Algebra.Order.BigOperators.Group.Finset
import Mathlib.Data.Fintype.Card

/-!
# Reference-counted cells

A finite store of cells, each with a reference count and a link to another cell. Somebody
outside the store holds references — `held p` of them to cell `p` — and every live cell holds
one to its successor. The books balance when nothing else is counted:

    Balanced h held  :=  ∀ p, (h p).ref = held p + links h p

Each operation moves references between the store and its holders, and its law says so:
taking a reference adds `one (some p)` to what is held, giving one up takes it away, a new
link swallows the reference that was held to its target. `free` is the operation with a loop
in it — a cell that dies gives up the reference of its link, which may kill the next one — and
`Balanced.free` is the loop's invariant run to its end: whatever the cascade frees, the books
balance with exactly one reference less held.

`holders` counts the references of an array of slots, the usual holder.
-/

namespace RefCount

variable {P D : Type*}

structure Cell (P D : Type*) where
  ref : ℕ
  next : Option P
  val : D

/-- The store. A cell with count 0 is free. -/
abbrev Heap (P D : Type*) := P → Cell P D

section Counting

variable [DecidableEq P]

/-- The references of one pointer. -/
def one (o : Option P) (p : P) : ℕ := if o = some p then 1 else 0

@[simp] theorem one_none : one (none : Option P) = 0 := funext fun _ => rfl

@[simp] theorem one_self (p : P) : one (some p) p = 1 := if_pos rfl

theorem one_of_ne {p x : P} (h : p ≠ x) : one (some p) x = 0 :=
  if_neg fun he => h (Option.some.inj he)

/-- The references a cell holds: one to its successor while it is live. -/
def Cell.out (c : Cell P D) (p : P) : ℕ := if 0 < c.ref then one c.next p else 0

theorem Cell.out_of_live {c : Cell P D} (h : 0 < c.ref) (p : P) : c.out p = one c.next p :=
  if_pos h

theorem Cell.out_of_dead {c : Cell P D} (h : c.ref = 0) (p : P) : c.out p = 0 :=
  if_neg (by omega)

/-! ## Operations -/

/-- `p->ref++` -/
def retain (h : Heap P D) (p : P) : Heap P D :=
  Function.update h p { h p with ref := (h p).ref + 1 }

/-- Take a free cell. -/
def alloc (h : Heap P D) (p : P) (v : D) : Heap P D :=
  Function.update h p { ref := 1, next := none, val := v }

/-- `p->next = o` -/
def setNext (h : Heap P D) (p : P) (o : Option P) : Heap P D :=
  Function.update h p { h p with next := o }

/-- Write the payload of a cell. -/
def setVal (h : Heap P D) (p : P) (v : D) : Heap P D :=
  Function.update h p { h p with val := v }

/-- `p->ref--` -/
def release (h : Heap P D) (p : P) : Heap P D :=
  Function.update h p { h p with ref := (h p).ref - 1 }

/-- `while (p) { if (--p->ref == 0) p = p->next; else p = NULL; }`, at most `n` times round. -/
def freeFrom : ℕ → Heap P D → Option P → Heap P D
  | 0, h, _ => h
  | _ + 1, h, none => h
  | n + 1, h, some p =>
      if (h p).ref = 1 then freeFrom n (release h p) (h p).next else release h p

theorem release_of_ne (h : Heap P D) {p x : P} (hx : x ≠ p) : release h p x = h x :=
  Function.update_of_ne hx ..

@[simp] theorem release_ref (h : Heap P D) (p : P) : (release h p p).ref = (h p).ref - 1 := by
  simp [release]

@[simp] theorem release_next (h : Heap P D) (p x : P) : (release h p x).next = (h x).next := by
  by_cases hx : x = p
  · subst hx
    simp [release]
  · rw [release_of_ne h hx]

@[simp] theorem release_val (h : Heap P D) (p x : P) : (release h p x).val = (h x).val := by
  by_cases hx : x = p
  · subst hx
    simp [release]
  · rw [release_of_ne h hx]

theorem release_ref_le (h : Heap P D) (p x : P) : (release h p x).ref ≤ (h x).ref := by
  by_cases hx : x = p
  · subst hx
    simp
  · rw [release_of_ne h hx]

/-! The other operations, off the cell they write and off the field. -/

theorem retain_of_ne (h : Heap P D) {p x : P} (hx : x ≠ p) : retain h p x = h x :=
  Function.update_of_ne hx ..

@[simp] theorem retain_next (h : Heap P D) (p x : P) : (retain h p x).next = (h x).next := by
  by_cases hx : x = p
  · subst hx
    simp [retain]
  · rw [retain_of_ne h hx]

@[simp] theorem retain_val (h : Heap P D) (p x : P) : (retain h p x).val = (h x).val := by
  by_cases hx : x = p
  · subst hx
    simp [retain]
  · rw [retain_of_ne h hx]

theorem alloc_of_ne (h : Heap P D) {p x : P} (hx : x ≠ p) (v : D) : alloc h p v x = h x :=
  Function.update_of_ne hx ..

@[simp] theorem alloc_self (h : Heap P D) (p : P) (v : D) :
    alloc h p v p = { ref := 1, next := none, val := v } := Function.update_self ..

theorem setNext_of_ne (h : Heap P D) {p x : P} (hx : x ≠ p) (o : Option P) :
    setNext h p o x = h x := Function.update_of_ne hx ..

@[simp] theorem setNext_ref (h : Heap P D) (p x : P) (o : Option P) :
    (setNext h p o x).ref = (h x).ref := by
  by_cases hx : x = p
  · subst hx
    simp [setNext]
  · rw [setNext_of_ne h hx]

@[simp] theorem setNext_val (h : Heap P D) (p x : P) (o : Option P) :
    (setNext h p o x).val = (h x).val := by
  by_cases hx : x = p
  · subst hx
    simp [setNext]
  · rw [setNext_of_ne h hx]

theorem setVal_of_ne (h : Heap P D) {p x : P} (hx : x ≠ p) (v : D) : setVal h p v x = h x :=
  Function.update_of_ne hx ..

@[simp] theorem setVal_self_val (h : Heap P D) (p : P) (v : D) : (setVal h p v p).val = v := by
  simp [setVal]

@[simp] theorem setVal_ref (h : Heap P D) (p x : P) (v : D) :
    (setVal h p v x).ref = (h x).ref := by
  by_cases hx : x = p
  · subst hx
    simp [setVal]
  · rw [setVal_of_ne h hx]

/-- Freeing writes no link and no payload, and raises no count. -/
theorem freeFrom_frame (n : ℕ) (h : Heap P D) (o : Option P) (x : P) :
    (freeFrom n h o x).next = (h x).next ∧ (freeFrom n h o x).val = (h x).val ∧
      (freeFrom n h o x).ref ≤ (h x).ref := by
  induction n generalizing h o with
  | zero => exact ⟨rfl, rfl, Nat.le_refl _⟩
  | succ n ih =>
    cases o with
    | none => exact ⟨rfl, rfl, Nat.le_refl _⟩
    | some p =>
      unfold freeFrom
      split
      · obtain ⟨hnext, hval, href⟩ := ih (release h p) (h p).next
        exact ⟨hnext.trans (release_next h p x), hval.trans (release_val h p x),
          href.trans (release_ref_le h p x)⟩
      · exact ⟨release_next h p x, release_val h p x, release_ref_le h p x⟩

/-! ## The books -/

variable [Fintype P]

/-- The live cells whose successor is `p`. -/
def links (h : Heap P D) (p : P) : ℕ := ∑ q, (h q).out p

/-- **The books balance**: a count is what is held from outside plus what is linked from
    live cells. -/
def Balanced (h : Heap P D) (held : P → ℕ) : Prop := ∀ p, (h p).ref = held p + links h p

/-- Writing one cell changes the links by what that cell holds. -/
theorem links_update (h : Heap P D) (q : P) (c : Cell P D) (p : P) :
    links (Function.update h q c) p + (h q).out p = links h p + c.out p := by
  have hcomp : (fun x => (Function.update h q c x).out p) =
      Function.update (fun x => (h x).out p) q (c.out p) := by
    funext x
    by_cases hx : x = q
    · subst hx
      simp
    · simp [Function.update_of_ne hx]
  unfold links
  rw [hcomp, Finset.sum_update_of_mem (Finset.mem_univ q),
    ← Finset.add_sum_erase Finset.univ (fun x => (h x).out p) (Finset.mem_univ q),
    Finset.sdiff_singleton_eq_erase]
  omega

/-- Writing a cell that keeps its reference to its successor changes no link. -/
theorem links_update_eq {h : Heap P D} {q : P} {c : Cell P D} (hout : ∀ p, c.out p = (h q).out p)
    (p : P) : links (Function.update h q c) p = links h p := by
  have := links_update h q c p
  rw [hout] at this
  omega

/-- A live cell's link is counted. -/
theorem links_pos {h : Heap P D} {q p : P} (hq : 0 < (h q).ref) (hnext : (h q).next = some p) :
    0 < links h p := by
  have hle : (h q).out p ≤ links h p :=
    Finset.single_le_sum (f := fun x => (h x).out p) (fun _ _ => Nat.zero_le _)
      (Finset.mem_univ q)
  rw [Cell.out_of_live hq, hnext, one_self] at hle
  omega

variable {h : Heap P D} {held : P → ℕ}

theorem Balanced.congr {held' : P → ℕ} (hb : Balanced h held) (heq : ∀ p, held p = held' p) :
    Balanced h held' := fun p => by rw [← heq p]; exact hb p

/-- Who is held is live. -/
theorem Balanced.ref_pos {p : P} (hb : Balanced h held) (hp : 0 < held p) : 0 < (h p).ref := by
  rw [hb p]
  omega

theorem Balanced.retain {p : P} (hb : Balanced h held) (hp : 0 < (h p).ref) :
    Balanced (retain h p) (held + one (some p)) := by
  intro x
  unfold RefCount.retain
  rw [links_update_eq fun y => by rw [Cell.out_of_live hp, Cell.out_of_live (Nat.succ_pos _)],
    Pi.add_apply]
  have hx := hb x
  by_cases hxp : x = p
  · subst hxp
    rw [Function.update_self, one_self]
    show (h x).ref + 1 = _
    omega
  · rw [Function.update_of_ne hxp, one_of_ne (Ne.symm hxp)]
    exact hx

theorem Balanced.alloc {p : P} (hb : Balanced h held) (hp : (h p).ref = 0) (v : D) :
    Balanced (alloc h p v) (held + one (some p)) := by
  intro x
  unfold RefCount.alloc
  rw [links_update_eq fun y => by rw [Cell.out_of_dead hp]; rfl, Pi.add_apply]
  have hx := hb x
  by_cases hxp : x = p
  · subst hxp
    rw [Function.update_self, one_self]
    show 1 = _
    omega
  · rw [Function.update_of_ne hxp, one_of_ne (Ne.symm hxp)]
    exact hx

/-- The old successor's reference comes out, the new one's goes in. -/
theorem Balanced.setNext {p : P} {o : Option P} (hb : Balanced h (held + one o))
    (hp : 0 < (h p).ref) : Balanced (setNext h p o) (held + one (h p).next) := by
  intro x
  have hlinks : links (RefCount.setNext h p o) x + one (h p).next x = links h x + one o x := by
    have hupd := links_update h p { h p with next := o } x
    rw [Cell.out_of_live hp] at hupd
    rw [RefCount.setNext, hupd, Cell.out_of_live (c := { h p with next := o }) hp]
  have hx := hb x
  rw [setNext_ref]
  simp only [Pi.add_apply] at hx ⊢
  omega

theorem Balanced.setVal {p : P} {v : D} (hb : Balanced h held) : Balanced (setVal h p v) held := by
  intro x
  have hlinks : links (RefCount.setVal h p v) x = links h x :=
    links_update_eq (c := { h p with val := v }) (fun _ => rfl) x
  rw [hlinks, setVal_ref]
  exact hb x

/-! ### Giving up a reference -/

/-- Every time round but the last kills a cell: as many times as there are cells is enough
    (`Balanced.free`). -/
def free (h : Heap P D) (o : Option P) : Heap P D := freeFrom (Fintype.card P) h o

/-- The live cells. -/
def live (h : Heap P D) : Finset P := Finset.univ.filter fun p => 0 < (h p).ref

theorem links_release (h : Heap P D) (p x : P) :
    links (release h p) x + (h p).out x = links h x + (release h p p).out x := by
  rw [show release h p p = { h p with ref := (h p).ref - 1 } from Function.update_self ..]
  exact links_update h p _ x

/-- A cell with other references left stays. -/
theorem Balanced.release {p : P} (hb : Balanced h (held + one (some p))) (hp : (h p).ref ≠ 1) :
    Balanced (release h p) held := by
  have hself := hb p
  rw [Pi.add_apply, one_self] at hself
  intro x
  have hlinks := links_release h p x
  rw [Cell.out_of_live (by omega), Cell.out_of_live (by rw [release_ref]; omega), release_next]
    at hlinks
  have hx := hb x
  rw [Pi.add_apply] at hx
  by_cases hxp : x = p
  · subst hxp
    rw [release_ref]
    omega
  · rw [release_of_ne h hxp]
    rw [one_of_ne (Ne.symm hxp)] at hx
    omega

/-- A cell without one dies, and its link's reference is the next to give up. -/
theorem Balanced.kill {p : P} (hb : Balanced h (held + one (some p))) (hp : (h p).ref = 1) :
    Balanced (RefCount.release h p) (held + one (h p).next) := by
  have hself := hb p
  rw [Pi.add_apply, one_self] at hself
  intro x
  have hlinks := links_release h p x
  rw [Cell.out_of_live (by omega), Cell.out_of_dead (by rw [release_ref]; omega)] at hlinks
  have hx := hb x
  simp only [Pi.add_apply] at hx ⊢
  by_cases hxp : x = p
  · subst hxp
    rw [release_ref]
    omega
  · rw [release_of_ne h hxp]
    rw [one_of_ne (Ne.symm hxp)] at hx
    omega

theorem Balanced.freeFrom {n : ℕ} {o : Option P} (hb : Balanced h (held + one o))
    (hn : (RefCount.live h).card ≤ n) : Balanced (freeFrom n h o) held := by
  induction n generalizing h o with
  | zero =>
    cases o with
    | none => simpa [RefCount.freeFrom] using hb
    | some p =>
      -- a cell that is held is live
      have hmem : p ∈ RefCount.live h := by simp [RefCount.live, hb.ref_pos (p := p) (by simp)]
      rw [Nat.le_zero, Finset.card_eq_zero] at hn
      simp [hn] at hmem
  | succ n ih =>
    cases o with
    | none => simpa [RefCount.freeFrom] using hb
    | some p =>
      unfold RefCount.freeFrom
      split
      next hone =>
        apply ih (hb.kill hone)
        have herase : RefCount.live (RefCount.release h p) = (RefCount.live h).erase p := by
          ext x
          by_cases hxp : x = p
          · subst hxp
            simp [RefCount.live, hone]
          · simp [RefCount.live, hxp, release_of_ne h hxp]
        rw [herase, Finset.card_erase_of_mem (by simp [RefCount.live, hone])]
        omega
      next hne => exact hb.release hne

/-- **Giving up a reference balances**, however far the frees cascade. -/
theorem Balanced.free {o : Option P} (hb : Balanced h (held + one o)) :
    Balanced (RefCount.free h o) held :=
  hb.freeFrom (Finset.card_le_univ _)

theorem free_next (h : Heap P D) (o : Option P) (x : P) : (free h o x).next = (h x).next :=
  (freeFrom_frame _ h o x).1

theorem free_val (h : Heap P D) (o : Option P) (x : P) : (free h o x).val = (h x).val :=
  (freeFrom_frame _ h o x).2.1

theorem free_ref_le (h : Heap P D) (o : Option P) (x : P) : (free h o x).ref ≤ (h x).ref :=
  (freeFrom_frame _ h o x).2.2

end Counting

/-! ## References held by slots -/

section Holders

variable [DecidableEq P]

/-- The references the slots `0, …, n - 1` hold. -/
def holders (n : ℕ) (f : ℕ → Option P) (p : P) : ℕ := ∑ i ∈ Finset.range n, one (f i) p

theorem holders_congr {n : ℕ} {f g : ℕ → Option P} (h : ∀ i < n, f i = g i) :
    holders n f = holders n g := by
  funext p
  exact Finset.sum_congr rfl fun i hi => by rw [h i (Finset.mem_range.mp hi)]

theorem holders_succ (n : ℕ) (f : ℕ → Option P) :
    holders (n + 1) f = holders n f + one (f n) := by
  funext p
  exact Finset.sum_range_succ _ _

theorem holders_zero (f : ℕ → Option P) : holders 0 f = 0 := rfl

/-- Writing one slot. -/
theorem holders_update {n j : ℕ} (hj : j < n) (f : ℕ → Option P) (o : Option P) :
    holders n (Function.update f j o) + one (f j) = holders n f + one o := by
  funext p
  have hcomp : (fun i => one (Function.update f j o i) p) =
      Function.update (fun i => one (f i) p) j (one o p) := by
    funext i
    by_cases hi : i = j
    · subst hi
      simp
    · simp [Function.update_of_ne hi]
  have hmem := Finset.mem_range.mpr hj
  simp only [Pi.add_apply, holders]
  rw [hcomp, Finset.sum_update_of_mem hmem,
    ← Finset.add_sum_erase (Finset.range n) (fun i => one (f i) p) hmem,
    Finset.sdiff_singleton_eq_erase]
  omega

theorem holders_pos {n i : ℕ} {f : ℕ → Option P} {p : P} (hi : i < n) (hf : f i = some p) :
    0 < holders n f p := by
  have hle : one (f i) p ≤ holders n f p :=
    Finset.single_le_sum (f := fun i => one (f i) p) (fun _ _ => Nat.zero_le _)
      (Finset.mem_range.mpr hi)
  rw [hf, one_self] at hle
  omega

theorem holders_eq_zero {n : ℕ} {f : ℕ → Option P} {p : P} :
    holders n f p = 0 ↔ ∀ i < n, f i ≠ some p := by
  constructor
  · intro h i hi hf
    have := holders_pos hi hf
    omega
  · exact fun h => Finset.sum_eq_zero fun i hi => if_neg (h i (Finset.mem_range.mp hi))

theorem exists_of_holders_pos {n : ℕ} {f : ℕ → Option P} {p : P} (h : 0 < holders n f p) :
    ∃ i < n, f i = some p := by
  by_contra hno
  exact h.ne' (holders_eq_zero.mpr fun i hi hf => hno ⟨i, hi, hf⟩)

/-- Two slots hold two references. -/
theorem two_le_holders {n i j : ℕ} {f : ℕ → Option P} {p : P} (hi : i < n) (hj : j < n)
    (hij : i ≠ j) (hfi : f i = some p) (hfj : f j = some p) : 2 ≤ holders n f p := by
  have hupd := congrFun (holders_update hi f none) p
  have hrest : 0 < holders n (Function.update f i none) p :=
    holders_pos hj (by rw [Function.update_of_ne hij.symm]; exact hfj)
  simp only [Pi.add_apply, hfi, one_self, one_none, Pi.zero_apply] at hupd
  omega

end Holders

end RefCount
