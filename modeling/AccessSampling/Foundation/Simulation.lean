import AccessSampling.Foundation.Machine
import Mathlib.Data.List.Induction

/-!
# Runs with a past, and runs of one machine as runs of another

What a machine has come to often depends on the events it has taken, and not on its state
alone: nothing is delivered that has not been sent.  `exec_past` is the induction for an
invariant that speaks of both.

* `Simulation` — a machine takes each of its steps as a run of another machine does; what it
  means for their states to agree may mention what both have done so far.
* `Simulation.exec` — then each of its runs is matched by a run of the other machine.
* `countP_add_le` — what bounds the events of one kind, when the others cost nothing.
-/

namespace AccessSampling.Foundation

universe u v w x

namespace Machine

variable {σ : Type u} {ε : Type v} (M : Machine σ ε)

/-- **Invariants of the state and of the events so far.** -/
theorem exec_past {I : List ε → σ → Prop} {s₀ : σ} (init : I [] s₀)
    (step : ∀ es s e s', M.exec s₀ es = some s → I es s → M.next s e = some s' →
      I (es ++ [e]) s') :
    ∀ {es : List ε} {s : σ}, M.exec s₀ es = some s → I es s := by
  intro es
  induction es using List.reverseRecOn with
  | nil =>
      intro s h
      exact Option.some.inj h ▸ init
  | append_singleton es e ih =>
      intro s h
      obtain ⟨s₁, hrun, hnext⟩ := M.exec_concat_eq_some.mp h
      exact step es s₁ e s hrun (ih hrun) hnext

/-- Some events are counted against a budget, while the states a schedule passes through meet
`P`: each of them leaves less of it, and no other event gives any back. -/
theorem countP_add_le {R : σ → ℕ → Prop} {P : σ → Prop} {counted : ε → Bool}
    (step : ∀ s e s' n, P s → R s n → P s' → M.next s e = some s' →
      ∃ n', R s' n' ∧ n' + (if counted e then 1 else 0) ≤ n) :
    ∀ {es : List ε} {s s' : σ} {n : ℕ}, R s n → M.Through P s es → M.exec s es = some s' →
      ∃ n', R s' n' ∧ es.countP counted + n' ≤ n := by
  intro es
  induction es with
  | nil =>
      intro s s' n hR _ h
      cases h
      exact ⟨n, hR, Nat.le_of_eq (Nat.zero_add n)⟩
  | cons e es ih =>
      intro s s' n hR hP h
      obtain ⟨s₁, hnext, hrest⟩ := M.exec_cons_eq_some.mp h
      have hlater := hP.2 s₁ hnext
      obtain ⟨n₁, hR₁, hle₁⟩ := step s e s₁ n hP.1 hR hlater.head hnext
      obtain ⟨n', hR', hle'⟩ := ih hR₁ hlater hrest
      refine ⟨n', hR', ?_⟩
      rw [List.countP_cons]
      omega

end Machine

/-- Along the schedules that meet `P`, each step of `C` is taken by `A` as a run. -/
structure Simulation {σ : Type u} {ε : Type v} {τ : Type w} {δ : Type x} (C : Machine σ ε)
    (A : Machine τ δ) (s₀ : σ) (a₀ : τ) (P : List ε → Prop) where
  /-- The two have done the same. -/
  rel : List ε → σ → List δ → τ → Prop
  init : rel [] s₀ [] a₀
  step : ∀ {es s fs a e s'}, C.exec s₀ es = some s → A.exec a₀ fs = some a → rel es s fs a →
    P (es ++ [e]) → C.next s e = some s' →
    ∃ gs a', A.exec a gs = some a' ∧ rel (es ++ [e]) s' (fs ++ gs) a'

/-- **Every run is matched**, if `P` holds of a schedule no later than of what it begins. -/
theorem Simulation.exec {σ : Type u} {ε : Type v} {τ : Type w} {δ : Type x} {C : Machine σ ε}
    {A : Machine τ δ} {s₀ : σ} {a₀ : τ} {P : List ε → Prop} (S : Simulation C A s₀ a₀ P)
    (hearlier : ∀ es e, P (es ++ [e]) → P es) {es : List ε} {s : σ} (hP : P es)
    (hrun : C.exec s₀ es = some s) : ∃ fs a, A.exec a₀ fs = some a ∧ S.rel es s fs a := by
  refine C.exec_past (I := fun es s => P es → ∃ fs a, A.exec a₀ fs = some a ∧ S.rel es s fs a)
    (fun _ => ⟨[], a₀, rfl, S.init⟩) (fun es s e s' hrun hI hnext hP => ?_) hrun hP
  obtain ⟨fs, a, hfs, hrel⟩ := hI (hearlier es e hP)
  obtain ⟨gs, a', hgs, hrel'⟩ := S.step hrun hfs hrel hP hnext
  exact ⟨fs ++ gs, a', A.exec_append_eq_some.mpr ⟨a, hfs, hgs⟩, hrel'⟩

end AccessSampling.Foundation
