import Mathlib.Data.List.Basic
import Mathlib.Data.List.Range
import Mathlib.Logic.Function.Basic
import Mathlib.Data.Nat.ModEq

/-!
# Circular stores

A circular store of capacity `C` is a memory `m : ℕ → α` of which only the cells
below `C` are used, addressed by **unbounded positions** reduced modulo `C`.
Two operations are enough for a ring buffer:

* `put C m p xs` — write `xs` at positions `p, p + 1, …`.
* `window C m p n` — the `n` cells at positions `p, …, p + n - 1`.

Everything a reader and a writer need from each other is the pair
`window_put_self` (a write is read back) and `window_put_of_disjoint` (a write
that stays within one revolution of a window does not touch it); both rest on
`mod_ne_of_lt`, that two positions less than a revolution apart are different
cells.
-/

namespace AccessSampling.Foundation

universe u

variable {α : Type u}

/-- Two positions less than one revolution apart are different cells. -/
theorem mod_ne_of_lt {C a b : ℕ} (hab : a < b) (hb : b < a + C) : a % C ≠ b % C := by
  intro h
  have hdvd : C ∣ b - a := (Nat.modEq_iff_dvd' hab.le).mp h
  have := Nat.le_of_dvd (by omega) hdvd
  omega

/-- Moving from a position to the end of the store arrives at its first cell. -/
theorem add_sub_mod_self {C : ℕ} (p : ℕ) (hC : 0 < C) : (p + (C - p % C)) % C = 0 := by
  have hmod := Nat.mod_lt p hC
  have hsum : p + (C - p % C) = C * (p / C + 1) := by
    have := Nat.div_add_mod p C
    rw [Nat.mul_add, Nat.mul_one]
    omega
  rw [hsum, Nat.mul_mod_right]

/-- Write `xs` at positions `p, p + 1, …` of a circular store. -/
def put (C : ℕ) : (ℕ → α) → ℕ → List α → ℕ → α
  | m, _, [] => m
  | m, p, x :: xs => put C (Function.update m (p % C) x) (p + 1) xs

/-- The `n` cells at positions `p, …, p + n - 1` of a circular store. -/
def window (C : ℕ) (m : ℕ → α) (p n : ℕ) : List α :=
  (List.range n).map fun i => m ((p + i) % C)

theorem put_cons (C : ℕ) (m : ℕ → α) (p : ℕ) (x : α) (xs : List α) :
    put C m p (x :: xs) = put C (Function.update m (p % C) x) (p + 1) xs := rfl

@[simp] theorem length_window (C : ℕ) (m : ℕ → α) (p n : ℕ) :
    (window C m p n).length = n := by
  simp [window]

theorem getElem?_window {C : ℕ} {m : ℕ → α} {p n i : ℕ} (hi : i < n) :
    (window C m p n)[i]? = some (m ((p + i) % C)) := by
  simp [window, hi]

/-- A window is its first `a` cells followed by the window that starts there. -/
theorem window_add (C : ℕ) (m : ℕ → α) (p a b : ℕ) :
    window C m p (a + b) = window C m p a ++ window C m (p + a) b := by
  simp only [window, List.range_add, List.map_append, List.map_map]
  refine congrArg _ (List.map_congr_left fun i _ => ?_)
  simp [Nat.add_assoc]

/-- A window may be addressed by the cell it starts in. -/
theorem window_mod (C : ℕ) (m : ℕ → α) (p n : ℕ) :
    window C m (p % C) n = window C m p n :=
  List.map_congr_left fun i _ => congrArg m (Nat.mod_add_mod p C i)

/-- A stretch of a window is a window. -/
theorem window_slice {C : ℕ} {m : ℕ → α} {p s a n : ℕ} (h : a + n ≤ s) :
    ((window C m p s).drop a).take n = window C m (p + a) n := by
  obtain ⟨rest, rfl⟩ := Nat.exists_eq_add_of_le h
  rw [Nat.add_assoc, window_add, window_add,
    List.drop_left' (length_window C m p a),
    List.take_left' (length_window C m (p + a) n)]

/-- Windows of memories that agree on their cells are equal. -/
theorem window_congr {C : ℕ} {m m' : ℕ → α} {p n : ℕ}
    (h : ∀ i < n, m ((p + i) % C) = m' ((p + i) % C)) :
    window C m p n = window C m' p n :=
  List.map_congr_left fun i hi => h i (List.mem_range.mp hi)

/-- A write may be addressed by any position of the cell it starts in. -/
theorem put_congr {C : ℕ} {xs : List α} :
    ∀ {m : ℕ → α} {p q : ℕ}, p % C = q % C → put C m p xs = put C m q xs := by
  induction xs with
  | nil => intro m p q _; rfl
  | cons x xs ih =>
      intro m p q h
      rw [put_cons, put_cons, h]
      exact ih (Nat.ModEq.add_right 1 h)

/-- A cell none of the written positions falls on keeps its contents. -/
theorem put_of_forall_ne {C : ℕ} {xs : List α} :
    ∀ {m : ℕ → α} {p j : ℕ}, (∀ i < xs.length, (p + i) % C ≠ j) →
      put C m p xs j = m j := by
  induction xs with
  | nil => intro m p j _; rfl
  | cons x xs ih =>
      intro m p j h
      rw [put_cons, ih]
      · exact Function.update_of_ne (h 0 (by simp)).symm _ _
      · intro i hi
        have := h (i + 1) (by simpa using hi)
        rwa [Nat.add_right_comm]

/-- A write of at most one revolution leaves its `i`-th element in its `i`-th
cell. -/
theorem put_getElem? {C : ℕ} {xs : List α} :
    ∀ {m : ℕ → α} {p i : ℕ}, xs.length ≤ C → i < xs.length →
      some (put C m p xs ((p + i) % C)) = xs[i]? := by
  induction xs with
  | nil => intro m p i _ hi; simp at hi
  | cons x xs ih =>
      intro m p i hlen hi
      rw [List.length_cons] at hlen hi
      rw [put_cons]
      cases i with
      | zero =>
          have hfar : ∀ j < xs.length, (p + 1 + j) % C ≠ p % C := by
            intro j hj
            exact (mod_ne_of_lt (by omega) (by omega)).symm
          rw [show p + 0 = p from rfl, put_of_forall_ne hfar, Function.update_self]
          rfl
      | succ i =>
          have := ih (m := Function.update m (p % C) x) (p := p + 1) (i := i)
            (by omega) (by omega)
          rwa [Nat.add_right_comm, Nat.add_assoc] at this

/-- **A write is read back**, as long as it is no longer than one revolution. -/
theorem window_put_self {C : ℕ} (m : ℕ → α) (p : ℕ) {xs : List α}
    (hlen : xs.length ≤ C) : window C (put C m p xs) p xs.length = xs := by
  refine List.ext_getElem? fun i => ?_
  by_cases hi : i < xs.length
  · rw [getElem?_window hi, put_getElem? hlen hi]
  · rw [List.getElem?_eq_none (by simpa using hi), List.getElem?_eq_none (by simpa using hi)]

/-- **A write leaves a window alone** when it starts after the window and ends
less than one revolution after the window's start. -/
theorem window_put_of_disjoint {C : ℕ} (m : ℕ → α) {p q n : ℕ} {xs : List α}
    (hafter : q + n ≤ p) (hwithin : p + xs.length ≤ q + C) :
    window C (put C m p xs) q n = window C m q n := by
  refine window_congr fun i hi => put_of_forall_ne fun j hj => ?_
  exact (mod_ne_of_lt (by omega) (by omega)).symm

/-- The window of a write placed right after another window extends it. -/
theorem window_put_append {C : ℕ} (m : ℕ → α) {q n : ℕ} {xs : List α}
    (hlen : n + xs.length ≤ C) :
    window C (put C m (q + n) xs) q (n + xs.length) = window C m q n ++ xs := by
  rw [window_add, window_put_of_disjoint m le_rfl (by omega),
    window_put_self m (q + n) (by omega)]

end AccessSampling.Foundation
