import Mathlib.Data.List.Basic
import Mathlib.Data.List.Induction

/-!
# Tokens that end at a delimiter

`List.splitOn` reads a list as tokens *between* delimiters; a delimiter at the end is
followed by one more token, which is empty.  A reader that takes one token after another
sees tokens that each **end** at a delimiter or at the end of the list, and stops when
nothing is left.

* `terminated d xs` — the tokens such a reader gets.
* `terminated_cons` — one token is read; this is the recursion of such a reader.
* `intercalate_terminated`, `terminated_intercalate` — reading undoes joining, up to one
  delimiter at the end.
* `length_terminated` — how many tokens there are.
-/

namespace AccessSampling.Foundation

universe u

variable {α : Type u}

/-! ### Tokens between delimiters -/

/-- The end of a joined list is the end of its last token. -/
theorem getLast?_intercalate (d : α) {t : List α} (hne : t ≠ []) (ts : List (List α)) :
    ([d].intercalate (ts ++ [t])).getLast? = t.getLast? := by
  obtain ⟨init, x, rfl⟩ : ∃ init x, t = init ++ [x] :=
    ⟨_, _, (List.dropLast_append_getLast hne).symm⟩
  induction ts with
  | nil => simp
  | cons s ts ih =>
      rw [List.cons_append, List.intercalate_cons_of_ne_nil (by simp), List.getLast?_append, ih]
      simp

variable [DecidableEq α] {d : α}

theorem not_mem_of_mem_splitOn {xs t : List α} (ht : t ∈ xs.splitOn d) : d ∉ t := by
  induction xs generalizing t with
  | nil =>
      rw [List.splitOn_nil, List.mem_singleton] at ht
      simp [ht]
  | cons x xs ih =>
      rw [List.splitOn_cons_eq_if_modifyHead] at ht
      split at ht
      case isTrue =>
        rcases List.mem_cons.mp ht with rfl | ht
        · exact List.not_mem_nil
        · exact ih ht
      case isFalse hne =>
        obtain ⟨head, tail, hsplit⟩ := List.exists_cons_of_ne_nil (List.splitOn_ne_nil d xs)
        rw [hsplit] at ht ih
        rcases List.mem_cons.mp ht with rfl | ht
        · rw [List.mem_cons, not_or]
          exact ⟨fun h => hne (beq_iff_eq.mpr h.symm), ih List.mem_cons_self⟩
        · exact ih (List.mem_cons_of_mem head ht)

theorem length_splitOn (d : α) (xs : List α) : (xs.splitOn d).length = xs.count d + 1 := by
  induction xs with
  | nil => rfl
  | cons x xs ih =>
      rw [List.splitOn_cons_eq_if_modifyHead, List.count_cons]
      split
      case isTrue => rw [List.length_cons, ih]
      case isFalse => rw [List.length_modifyHead, ih, Nat.add_zero]

/-! ### Tokens that end at a delimiter -/

/-- The tokens of `xs`, each ended by `d` or by the end of `xs`. -/
def terminated (d : α) (xs : List α) : List (List α) :=
  if xs = [] then [] else if xs.getLast? = some d then xs.dropLast.splitOn d else xs.splitOn d

@[simp] theorem terminated_nil (d : α) : terminated d [] = [] := rfl

theorem terminated_concat (d : α) (xs : List α) : terminated d (xs ++ [d]) = xs.splitOn d := by
  simp [terminated]

theorem terminated_of_getLast?_ne {xs : List α} (hne : xs ≠ []) (hlast : xs.getLast? ≠ some d) :
    terminated d xs = xs.splitOn d := by
  rw [terminated, if_neg hne, if_neg hlast]

/-- What is left without a delimiter is one token. -/
theorem terminated_of_not_mem {t : List α} (ht : d ∉ t) :
    terminated d t = if t = [] then [] else [t] := by
  split
  case isTrue hnil => rw [hnil, terminated_nil]
  case isFalse hne =>
    have hlast : t.getLast? ≠ some d := fun h => ht (List.mem_of_getLast? h)
    rw [terminated_of_getLast?_ne hne hlast, List.splitOn_eq_singleton ht]

/-- **One token is read**, up to the first delimiter. -/
theorem terminated_cons {t : List α} (ht : d ∉ t) (xs : List α) :
    terminated d (t ++ d :: xs) = t :: terminated d xs := by
  induction xs using List.reverseRecOn with
  | nil => rw [terminated_concat, List.splitOn_eq_singleton ht, terminated_nil]
  | append_singleton xs x =>
      by_cases hx : x = d
      · subst hx
        rw [← List.cons_append, ← List.append_assoc, terminated_concat, terminated_concat,
          List.splitOn_append_cons_self_of_not_mem ht]
      · have hlast : (xs ++ [x]).getLast? ≠ some d := by simpa using hx
        have hlast' : (t ++ d :: (xs ++ [x])).getLast? ≠ some d := by
          rw [← List.cons_append, ← List.append_assoc, List.getLast?_concat]
          exact fun h => hx (Option.some.inj h)
        rw [terminated_of_getLast?_ne (by simp) hlast', terminated_of_getLast?_ne (by simp) hlast,
          List.splitOn_append_cons_self_of_not_mem ht]

theorem not_mem_of_mem_terminated {xs t : List α} (ht : t ∈ terminated d xs) : d ∉ t := by
  unfold terminated at ht
  split at ht
  case isTrue => cases ht
  case isFalse =>
    split at ht
    case isTrue => exact not_mem_of_mem_splitOn ht
    case isFalse => exact not_mem_of_mem_splitOn ht

/-- **Joining what has been read** gives back the list, without a delimiter at its end. -/
theorem intercalate_terminated (d : α) (xs : List α) :
    [d].intercalate (terminated d xs) = if xs.getLast? = some d then xs.dropLast else xs := by
  unfold terminated
  by_cases hne : xs = []
  · rw [if_pos hne, hne]
    rfl
  · rw [if_neg hne]
    split
    case isTrue => exact List.intercalate_splitOn d
    case isFalse => exact List.intercalate_splitOn d

/-- **Reading what has been joined** gives back the tokens, unless the last one is empty. -/
theorem terminated_intercalate {ts : List (List α)} (hts : ∀ t ∈ ts, d ∉ t)
    (hlast : ts.getLast? ≠ some []) : terminated d ([d].intercalate ts) = ts := by
  induction ts using List.reverseRecOn with
  | nil => rfl
  | append_singleton ts t =>
      have ht : t ≠ [] := by simpa using hlast
      have hend := getLast?_intercalate d ht ts
      have hmem : d ∉ t := hts t (by simp)
      have hne : [d].intercalate (ts ++ [t]) ≠ [] := by
        intro hnil
        rw [hnil] at hend
        exact ht (List.getLast?_eq_none_iff.mp hend.symm)
      rw [terminated_of_getLast?_ne hne, List.splitOn_intercalate d hts (by simp)]
      rw [hend]
      exact fun h => hmem (List.mem_of_getLast? h)

/-- **How many tokens there are.** -/
theorem length_terminated (d : α) (xs : List α) :
    (terminated d xs).length =
      xs.count d + 1 - if xs = [] ∨ xs.getLast? = some d then 1 else 0 := by
  induction xs using List.reverseRecOn with
  | nil => rfl
  | append_singleton xs x =>
      by_cases hx : x = d
      · subst hx
        simp [terminated_concat, length_splitOn]
      · rw [terminated_of_getLast?_ne (by simp) (by simpa using hx), length_splitOn,
          if_neg (by simpa using hx)]
        rfl

end AccessSampling.Foundation
