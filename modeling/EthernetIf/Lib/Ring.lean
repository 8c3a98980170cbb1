import Mathlib.Logic.Function.Basic
import Mathlib.Data.Nat.ModEq
import Mathlib.Data.List.Range

/-!
# Windows of a circular buffer

A ring of `N` slots is used by counting: use number `k` goes to slot `k % N`. What two
parties agree on at any moment is then a statement about an *interval* of uses, never about
the slots themselves:

    Window N ring P a b  :=  every use k with a ≤ k < b satisfies P k (ring (k % N))

and the whole theory of the ring is that two uses less than `N` apart never share a slot
(`mod_ne_of_lt`). From it a store into the slot of a use outside the window is invisible to
the window (`Window.update_off`), the next use can be pushed at the right end
(`Window.push`), and the oldest one popped at the left (`Window.mono`).

The window is a predicate over the raw slots, so stale contents — what a slot still holds
from its previous use — are simply not in any window.
-/

namespace Ring

variable {β : Type*} {N : ℕ}

/-- Two uses of the ring less than `N` apart go to different slots. -/
theorem mod_ne_of_lt {a b : ℕ} (hab : a < b) (hb : b < a + N) : a % N ≠ b % N := by
  intro heq
  have hmod : a ≡ b [MOD N] := heq
  have hdvd : N ∣ b - a := (Nat.modEq_iff_dvd' (Nat.le_of_lt hab)).mp hmod
  have hle : N ≤ b - a := Nat.le_of_dvd (by omega) hdvd
  omega

/-- The slot after the slot of use `k` is the slot of use `k + 1`. -/
theorem succ_mod (k : ℕ) : (k % N + 1) % N = (k + 1) % N := Nat.mod_add_mod k N 1

/-- Each slot has a use in every turn of the ring. -/
theorem exists_use {i : ℕ} (hi : i < N) (a : ℕ) : ∃ k, a ≤ k ∧ k < a + N ∧ k % N = i := by
  have hN : 0 < N := by omega
  have ha := Nat.mod_lt a hN
  refine ⟨a + (i + N - a % N) % N, Nat.le_add_right _ _,
    Nat.add_lt_add_left (Nat.mod_lt _ hN) a, ?_⟩
  rw [Nat.add_mod_mod, ← Nat.mod_add_mod, Nat.add_sub_cancel' (by omega), Nat.add_mod_right,
    Nat.mod_eq_of_lt hi]

/-- Every use in `[a, b)` satisfies `P` at its slot. -/
def Window (N : ℕ) (ring : ℕ → β) (P : ℕ → β → Prop) (a b : ℕ) : Prop :=
  ∀ k, a ≤ k → k < b → P k (ring (k % N))

variable {ring : ℕ → β} {P Q : ℕ → β → Prop} {a b : ℕ}

/-- A window narrows: in particular its oldest use can be popped. -/
theorem Window.mono {a' b' : ℕ} (h : Window N ring P a b) (ha : a ≤ a') (hb : b' ≤ b) :
    Window N ring P a' b' :=
  fun k hak hkb => h k (ha.trans hak) (hkb.trans_le hb)

theorem Window.imp (h : Window N ring P a b)
    (hPQ : ∀ k, a ≤ k → k < b → P k (ring (k % N)) → Q k (ring (k % N))) :
    Window N ring Q a b :=
  fun k hak hkb => hPQ k hak hkb (h k hak hkb)

/-- **Off-window stores are invisible**: the slot of use `j` is not the slot of any use in
    `[a, b)` once `j` is outside it and all of them lie within one turn of the ring. -/
theorem Window.update_off {j : ℕ} {d : β} (h : Window N ring P a b)
    (hj : (b ≤ j ∧ j < a + N) ∨ (j < a ∧ b ≤ j + N)) :
    Window N (Function.update ring (j % N) d) P a b := by
  intro k hak hkb
  have hne : k % N ≠ j % N := by
    rcases hj with ⟨hbj, hjN⟩ | ⟨hja, hbN⟩
    · exact mod_ne_of_lt (by omega) (by omega)
    · exact (mod_ne_of_lt (by omega) (by omega)).symm
  rw [Function.update_of_ne hne]
  exact h k hak hkb

/-- A store into the slot of a use *inside* the window: what it stores must satisfy the
    window's predicate there. -/
theorem Window.update_at {j : ℕ} {d : β} (h : Window N ring P a b) (hN : b ≤ a + N)
    (haj : a ≤ j) (hjb : j < b) (hd : P j d) :
    Window N (Function.update ring (j % N) d) P a b := by
  intro k hak hkb
  rcases Nat.lt_trichotomy k j with hlt | rfl | hgt
  · rw [Function.update_of_ne (mod_ne_of_lt hlt (by omega))]
    exact h k hak hkb
  · rw [Function.update_self]
    exact hd
  · rw [Function.update_of_ne (mod_ne_of_lt hgt (by omega)).symm]
    exact h k hak hkb

/-- The use after the last one joins the window as soon as its slot satisfies `P`. -/
theorem Window.snoc (h : Window N ring P a b) (hb : P b (ring (b % N))) :
    Window N ring P a (b + 1) := by
  intro k hak hkb
  rcases Nat.lt_succ_iff_lt_or_eq.mp hkb with hlt | rfl
  · exact h k hak hlt
  · exact hb

/-- **Push**: store into the slot of the next use and take it into the window. -/
theorem Window.push {d : β} (h : Window N ring P a b) (hN : b < a + N) (hd : P b d) :
    Window N (Function.update ring (b % N) d) P a (b + 1) :=
  (h.update_off (.inl ⟨le_refl b, hN⟩)).snoc (by rw [Function.update_self]; exact hd)

/-- An empty window says nothing. -/
theorem Window.nil (h : b ≤ a) : Window N ring P a b := fun _ hak hkb => by omega

/-! ## Initialising loops -/

/-- A loop that visits the slots `0, …, n - 1` in order and rewrites each in place leaves
    slot `i` rewritten once, and the slots past the end alone. -/
theorem foldl_range_update (g : ℕ → β → β) (ring : ℕ → β) (n i : ℕ) :
    (List.range n).foldl (fun r j => Function.update r j (g j (r j))) ring i =
      if i < n then g i (ring i) else ring i := by
  induction n with
  | zero => simp
  | succ n ih =>
    rw [List.range_succ, List.foldl_append, List.foldl_cons, List.foldl_nil]
    by_cases hin : i = n
    · subst hin
      have hlast := ih
      rw [if_neg (by omega)] at hlast
      rw [Function.update_self, hlast, if_pos (by omega)]
    · rw [Function.update_of_ne hin, ih]
      by_cases hlt : i < n
      · rw [if_pos hlt, if_pos (by omega)]
      · rw [if_neg hlt, if_neg (by omega)]

/-- The same loop where the body of iteration `j` needs a resource that may not be had: it
    ends normally only if every iteration got one. -/
theorem foldlM_range_update {γ : Type*} (get : ℕ → Option γ) (g : ℕ → γ → β → β) {n : ℕ}
    {ring ring' : ℕ → β}
    (h : (List.range n).foldlM (fun r j => (get j).map fun c =>
      Function.update r j (g j c (r j))) ring = some ring') :
    (∀ i < n, ∃ c, get i = some c ∧ ring' i = g i c (ring i)) ∧
      ∀ i, n ≤ i → ring' i = ring i := by
  induction n generalizing ring' with
  | zero =>
    obtain rfl := Option.some.inj h
    exact ⟨fun i hi => absurd hi (Nat.not_lt_zero i), fun i _ => rfl⟩
  | succ n ih =>
    rw [List.range_succ, List.foldlM_append, Option.bind_eq_bind, Option.bind_eq_some_iff] at h
    obtain ⟨mid, hmid, hlast⟩ := h
    obtain ⟨hlt, hge⟩ := ih hmid
    simp only [List.foldlM_cons, List.foldlM_nil, Option.bind_eq_bind, Option.pure_def,
      Option.bind_fun_some, Option.map_eq_some_iff] at hlast
    obtain ⟨c, hc, rfl⟩ := hlast
    refine ⟨fun i hi => ?_, fun i hi => ?_⟩
    · by_cases hin : i = n
      · subst hin
        exact ⟨c, hc, by rw [Function.update_self, hge i (Nat.le_refl i)]⟩
      · rw [Function.update_of_ne hin]
        exact hlt i (by omega)
    · rw [Function.update_of_ne (by omega)]
      exact hge i (by omega)

end Ring
