import Mathlib.Data.List.Basic
import Mathlib.Logic.Basic

/-!
# Guarded machines and their runs

A system that takes one step after another is a **guarded step function**:
`next s e = some s'` when event `e` is enabled in state `s`, and `none` when it
is not.  Nothing else is assumed about states or events, so a machine is at once
something a concrete schedule can be replayed on and something an invariant can
be proved about.

* `exec` — replay a schedule of events; `none` when an event is not enabled.
* `Along Q` — every event of the schedule meets `Q` in the state it is taken in.
  This is how a result about *some* schedules ("no record is longer than …") is
  stated without building the restriction into the step function.
* `exec_invariant` — the one induction: an invariant that survives every step
  meeting `Q` holds after every schedule along which `Q` holds.
* `Through P` — `P` holds in every state a schedule passes through, its last one
  included.
* `length_add_le`, `exec_to_end` — when every step leaves less to do, runs are bounded, and
  they come to an end if they cannot get stuck before.
-/

namespace AccessSampling.Foundation

universe u v w

/-- A guarded machine over states `σ` and events `ε`. -/
structure Machine (σ : Type u) (ε : Type v) where
  /-- One event; `none` when the event is not enabled. -/
  next : σ → ε → Option σ

namespace Machine

variable {σ : Type u} {ε : Type v} (M : Machine σ ε)

/-- Replay a schedule from a state. -/
def exec : σ → List ε → Option σ
  | s, [] => some s
  | s, e :: es => (M.next s e).bind fun s' => exec s' es

/-- Every event of the schedule meets `Q` in the state it is taken in. -/
def Along (Q : σ → ε → Prop) : σ → List ε → Prop
  | _, [] => True
  | s, e :: es => Q s e ∧ ∀ s', M.next s e = some s' → Along Q s' es

/-- `P` holds in every state the schedule passes through. -/
def Through (P : σ → Prop) : σ → List ε → Prop
  | s, [] => P s
  | s, e :: es => P s ∧ ∀ s', M.next s e = some s' → Through P s' es

@[simp] theorem exec_nil (s : σ) : M.exec s [] = some s := rfl

theorem exec_cons (s : σ) (e : ε) (es : List ε) :
    M.exec s (e :: es) = (M.next s e).bind fun s' => M.exec s' es := rfl

theorem exec_cons_eq_some {s s'' : σ} {e : ε} {es : List ε} :
    M.exec s (e :: es) = some s'' ↔
      ∃ s', M.next s e = some s' ∧ M.exec s' es = some s'' := by
  rw [exec_cons, Option.bind_eq_some_iff]

@[simp] theorem exec_singleton (s : σ) (e : ε) : M.exec s [e] = M.next s e := by
  rw [exec_cons]
  cases M.next s e with
  | none => rfl
  | some s' => rfl

/-- Replaying two schedules in a row. -/
theorem exec_append (s : σ) (es fs : List ε) :
    M.exec s (es ++ fs) = (M.exec s es).bind fun s' => M.exec s' fs := by
  induction es generalizing s with
  | nil => rfl
  | cons e es ih =>
      rw [List.cons_append, exec_cons, exec_cons, Option.bind_assoc]
      exact congrArg _ (funext fun s' => ih s')

theorem exec_append_eq_some {s s'' : σ} {es fs : List ε} :
    M.exec s (es ++ fs) = some s'' ↔
      ∃ s', M.exec s es = some s' ∧ M.exec s' fs = some s'' := by
  rw [exec_append, Option.bind_eq_some_iff]

theorem exec_concat_eq_some {s s'' : σ} {es : List ε} {e : ε} :
    M.exec s (es ++ [e]) = some s'' ↔
      ∃ s', M.exec s es = some s' ∧ M.next s' e = some s'' := by
  rw [exec_append_eq_some]
  simp

/-- **Invariants.**  What every step meeting `Q` preserves holds after every
schedule along which `Q` holds. -/
theorem exec_invariant {Q : σ → ε → Prop} {I : σ → Prop}
    (step : ∀ s e s', I s → Q s e → M.next s e = some s' → I s') :
    ∀ {es : List ε} {s s' : σ}, I s → M.Along Q s es →
      M.exec s es = some s' → I s' := by
  intro es
  induction es with
  | nil =>
      intro s s' hI _ h
      exact Option.some.inj h ▸ hI
  | cons e es ih =>
      intro s s' hI hQ h
      obtain ⟨s₁, hnext, hrest⟩ := M.exec_cons_eq_some.mp h
      exact ih (step s e s₁ hI hQ.1 hnext) (hQ.2 s₁ hnext) hrest

/-- The unconditional form of `exec_invariant`. -/
theorem exec_preserves {I : σ → Prop}
    (step : ∀ s e s', I s → M.next s e = some s' → I s')
    {es : List ε} {s s' : σ} (hI : I s) (h : M.exec s es = some s') : I s' := by
  induction es generalizing s with
  | nil => exact Option.some.inj h ▸ hI
  | cons e es ih =>
      obtain ⟨s₁, hnext, hrest⟩ := M.exec_cons_eq_some.mp h
      exact ih (step s e s₁ hI hnext) hrest

/-- An invariant that survives every step meeting `Q` holds in every state a
schedule meeting `Q` passes through. -/
theorem through_of_along {Q : σ → ε → Prop} {I : σ → Prop}
    (step : ∀ s e s', I s → Q s e → M.next s e = some s' → I s') :
    ∀ {es : List ε} {s : σ}, I s → M.Along Q s es → M.Through I s es := by
  intro es
  induction es with
  | nil => intro s hI _; exact hI
  | cons e es ih =>
      intro s hI hQ
      exact ⟨hI, fun s' h => ih (step s e s' hI hQ.1 h) (hQ.2 s' h)⟩

theorem Through.head {P : σ → Prop} {es : List ε} {s : σ} (h : M.Through P s es) : P s := by
  cases es with
  | nil => exact h
  | cons e es => exact h.1

/-- What a schedule passes through, what is left of it passes through. -/
theorem Through.right {P : σ → Prop} {fs : List ε} :
    ∀ {es : List ε} {s s' : σ}, M.Through P s (es ++ fs) → M.exec s es = some s' →
      M.Through P s' fs := by
  intro es
  induction es with
  | nil =>
      intro s s' h hrun
      exact Option.some.inj hrun ▸ h
  | cons e es ih =>
      intro s s' h hrun
      obtain ⟨s₁, hnext, hrest⟩ := M.exec_cons_eq_some.mp hrun
      exact ih (h.2 s₁ hnext) hrest

/-- What holds along a schedule holds along what is left of it. -/
theorem Along.right {Q : σ → ε → Prop} {fs : List ε} :
    ∀ {es : List ε} {s s' : σ}, M.Along Q s (es ++ fs) → M.exec s es = some s' →
      M.Along Q s' fs := by
  intro es
  induction es with
  | nil =>
      intro s s' h hrun
      exact Option.some.inj hrun ▸ h
  | cons e es ih =>
      intro s s' h hrun
      obtain ⟨s₁, hnext, hrest⟩ := M.exec_cons_eq_some.mp hrun
      exact ih (h.2 s₁ hnext) hrest

theorem along_append {Q : σ → ε → Prop} {fs : List ε} :
    ∀ {es : List ε} {s : σ}, M.Along Q s (es ++ fs) ↔
      M.Along Q s es ∧ ∀ s', M.exec s es = some s' → M.Along Q s' fs := by
  intro es
  induction es with
  | nil =>
      intro s
      refine ⟨fun h => ⟨trivial, fun s' hs => Option.some.inj hs ▸ h⟩, fun h => h.2 s rfl⟩
  | cons e es ih =>
      intro s
      constructor
      · intro h
        refine ⟨⟨h.1, fun s₁ hnext => (ih.mp (h.2 s₁ hnext)).1⟩, fun s' hrun => ?_⟩
        obtain ⟨s₁, hnext, hrest⟩ := M.exec_cons_eq_some.mp hrun
        exact (ih.mp (h.2 s₁ hnext)).2 s' hrest
      · rintro ⟨hbefore, hafter⟩
        refine ⟨hbefore.1, fun s₁ hnext => ih.mpr ⟨hbefore.2 s₁ hnext, fun s' hrest => ?_⟩⟩
        exact hafter s' (M.exec_cons_eq_some.mpr ⟨s₁, hnext, hrest⟩)

/-- Along a schedule, one condition may rest on another one and on an invariant that the
other one preserves. -/
theorem along_imp {I : σ → Prop} {Q R : σ → ε → Prop}
    (step : ∀ s e s', I s → Q s e → M.next s e = some s' → I s')
    (h : ∀ s e, I s → Q s e → R s e) :
    ∀ {es : List ε} {s : σ}, I s → M.Along Q s es → M.Along R s es := by
  intro es
  induction es with
  | nil => intro s _ _; trivial
  | cons e es ih =>
      intro s hI hQ
      exact ⟨h s e hI hQ.1, fun s' hs => ih (step s e s' hI hQ.1 hs) (hQ.2 s' hs)⟩

/-- A condition that each event of the schedule meets in any state. -/
theorem along_of_forall_mem {Q : σ → ε → Prop} :
    ∀ {es : List ε} {s : σ}, (∀ e ∈ es, ∀ s, Q s e) → M.Along Q s es := by
  intro es
  induction es with
  | nil => intro s _; trivial
  | cons e es ih =>
      intro s h
      exact ⟨h e List.mem_cons_self s, fun s' _ =>
        ih fun f hf => h f (List.mem_cons_of_mem e hf)⟩

/-- A condition tested in every state of a schedule as it is replayed. -/
def checks (b : σ → ε → Bool) : σ → List ε → Bool
  | _, [] => true
  | s, e :: es =>
      b s e && match M.next s e with
        | some s' => checks b s' es
        | none => true

theorem along_of_checks {Q : σ → ε → Prop} {b : σ → ε → Bool}
    (h : ∀ s e, b s e = true → Q s e) :
    ∀ {es : List ε} {s : σ}, M.checks b s es = true → M.Along Q s es := by
  intro es
  induction es with
  | nil => intro s _; trivial
  | cons e es ih =>
      intro s hb
      rw [checks, Bool.and_eq_true] at hb
      refine ⟨h s e hb.1, fun s' hnext => ih ?_⟩
      rw [hnext] at hb
      exact hb.2

/-- Two conditions that agree in every state of an invariant that one of them
preserves hold along the same schedules. -/
theorem along_congr {I : σ → Prop} {Q R : σ → ε → Prop}
    (step : ∀ s e s', I s → R s e → M.next s e = some s' → I s')
    (h : ∀ s e, I s → (Q s e ↔ R s e)) {es : List ε} {s : σ} (hI : I s) :
    M.Along Q s es ↔ M.Along R s es :=
  ⟨M.along_imp (fun s e s' hI hQ => step s e s' hI ((h s e hI).mp hQ))
      (fun s e hI => (h s e hI).mp) hI,
    M.along_imp step (fun s e hI => (h s e hI).mpr) hI⟩

theorem Through.mono {P R : σ → Prop} (h : ∀ s, P s → R s) :
    ∀ {es : List ε} {s : σ}, M.Through P s es → M.Through R s es := by
  intro es
  induction es with
  | nil => intro s hP; exact h s hP
  | cons e es ih =>
      intro s hP
      exact ⟨h s hP.1, fun s' hs => ih (hP.2 s' hs)⟩

/-! ### Runs that come to an end -/

section Ending

variable {left : σ → ℕ} {I : σ → Prop}

/-- A schedule is no longer than what is left to do, if every step leaves less. -/
theorem length_add_le (step : ∀ s e s', I s → M.next s e = some s' → I s' ∧ left s' < left s) :
    ∀ {es : List ε} {s s' : σ}, I s → M.exec s es = some s' → es.length + left s' ≤ left s := by
  intro es
  induction es with
  | nil =>
      intro s s' _ h
      cases h
      exact Nat.le_of_eq (Nat.zero_add _)
  | cons e es ih =>
      intro s s' hI h
      obtain ⟨s₁, hnext, hrest⟩ := M.exec_cons_eq_some.mp h
      obtain ⟨hI₁, hlt⟩ := step s e s₁ hI hnext
      have hle := ih hI₁ hrest
      rw [List.length_cons]
      omega

/-- If moreover a step can be taken until `P` holds, then every run can be continued until
`P` holds. -/
theorem exec_to_end {P : σ → Prop}
    (step : ∀ s e s', I s → M.next s e = some s' → I s' ∧ left s' < left s)
    (progress : ∀ s, I s → ¬ P s → ∃ e s', M.next s e = some s') {s : σ} (hI : I s) :
    ∃ es s', M.exec s es = some s' ∧ P s' := by
  induction hn : left s using Nat.strongRecOn generalizing s with
  | ind n ih =>
      by_cases hP : P s
      · exact ⟨[], s, rfl, hP⟩
      · obtain ⟨e, s₁, hnext⟩ := progress s hI hP
        obtain ⟨hI₁, hlt⟩ := step s e s₁ hI hnext
        obtain ⟨es, s', hrun, hend⟩ := ih (left s₁) (hn ▸ hlt) hI₁ rfl
        exact ⟨e :: es, s', M.exec_cons_eq_some.mpr ⟨s₁, hnext, hrun⟩, hend⟩

end Ending

end Machine

end AccessSampling.Foundation
