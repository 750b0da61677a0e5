import AccessSampling.Provenance

/-!
# Whose samples an id stands for

`add_metric` returns an id, and the call has opened one perf event.  What `get_all_values`
reads out for the id need not be the samples of that event: the events of a thread share
one buffer, an entry of the buffer does not say which event it comes from, and the entries
are selected by their access type.  An id stands for all the events that its thread has
opened under names of one access type; `other_samples_read_out` is two metrics `Load` that
are given each other's samples.

`attribution` says that nothing else is mixed up.  It goes from the values that are written
back to the kernel:

* the values are the times and addresses of the entries drained from those events, all of
  them, in the order they were drained (`Process.Attributed`);
* what has been drained of a descriptor is a subsequence of the samples that its event has
  taken, and as long as the thread runs it is the accesses of the records that `read` has
  handed out, none left out and none twice (`Process.Faithful`).

Without the second part the log of what was drained could be anything.

### What the hypotheses exclude

* `Attributable` — a sample that decodes as another access type than its event's name stands
  for, and a thread that registers its first metric under an id that is in the map already,
  and so records nothing (`no_buffer_of_known_id`).
* `hroom` — entries that have been overwritten.  What `EventRingBuffer` yields then is up to
  the trace library.
* `hcalls` — ids are `int32_t`, and a call that finds 2^31 metrics would be given a negative one.
-/

namespace AccessSampling

open Foundation

section ReadOut

variable {T : TraceEvents} {g : Geometry} {pfm : Pfm} {s : Process T}

/-- The times and addresses of drained samples, in the order they were drained. -/
def seriesOf (xs : List (Entry T)) : List (UInt64 × UInt64) :=
  xs.map fun x => (x.event.time, x.event.address)

/-- The drained samples of the events that a thread has opened under names of one type. -/
def Process.drainedAs (s : Process T) (t : ThreadId) (event_type : T.AccessType) :
    List (Entry T) :=
  s.drained.filter fun x => (s.opened x.fd).any fun r => r.tid = t ∧ r.access_type T = event_type

/-- Taking the entries of one type is taking the samples of the events of that type. -/
theorem Process.Attributed.valuesOf_eq (h : s.Attributed g) (t : ThreadId)
    (event_type : T.AccessType) :
    valuesOf event_type ((s.drainedOf t).map Entry.event)
      = seriesOf (s.drainedAs t event_type) := by
  rw [valuesOf, List.filter_map, List.map_map, Process.drainedOf, List.filter_filter, seriesOf,
    Process.drainedAs]
  congr 1
  refine List.filter_congr fun x hx => ?_
  obtain ⟨r, hr⟩ := Option.ne_none_iff_exists'.mp (h.recording.opened x hx)
  have htype := h.drained x hx r hr
  rw [hr, Option.any_some, Option.any_some, Function.comp_apply, ← Bool.decide_and,
    decide_eq_decide, htype]
  constructor
  · rintro ⟨htype', htid⟩
    exact ⟨htid, htype'.symm⟩
  · rintro ⟨htid, htype'⟩
    exact ⟨htype'.symm, htid⟩

/-- **Whose samples an id stands for.**  In a run in which samples decode as their event
says, no thread id is used again for a first metric, and no event is overwritten,
`get_all_values` writes for an id the samples of all events that its thread has opened
under a name of the same access type, each once, in the order they were appended.

These are the samples of the very call, if the thread has opened no other event under a
name of that type.  And what has been drained is what the kernel has sampled. -/
theorem attribution {es : List ProcessEvent} (B : EventRingBuffer T) {buffer_size_ : ℕ}
    {r : Registration} {fd : Fd}
    (hcond : (processMachine g pfm T).Along Attributable (.init T) es)
    (hrun : (processMachine g pfm T).exec (.init T) es = some s)
    (hcalls : es.countP ProcessEvent.isCall < 2 ^ 31)
    (hr : (r, fd) ∈ s.returned)
    (hroom : ∀ p, s.plugin.thread_event_buffers_.lookup r.tid = some (some p) →
      (s.plugin.heap p).length ≤ buffer_size_) :
    get_all_values B buffer_size_ s.plugin r.id
      = .writes (seriesOf (s.drainedAs r.tid (r.access_type T))) ∧
    ((∀ fd' r', s.opened fd' = some r' → r'.tid = r.tid →
        r'.access_type T = r.access_type T → fd' = fd) →
      get_all_values B buffer_size_ s.plugin r.id
        = .writes (seriesOf (s.drained.filter fun x => x.fd = fd))) ∧
    s.Faithful g es := by
  have h : s.Attributed g := .of_exec hcond hrun
  have hregistered : s.Registered r := h.recording.registry.returned _ hr
  obtain ⟨p, hp⟩ := h.recording.registry.buffer _ (List.mem_of_getElem? hregistered.entry)
  have hindex : r.index < 2 ^ 31 :=
    hregistered.index_lt.trans ((Process.length_le_calls hrun).trans_lt hcalls)
  have hall : get_all_values B buffer_size_ s.plugin r.id
      = .writes (seriesOf (s.drainedAs r.tid (r.access_type T))) := by
    rw [get_all_values_eq B buffer_size_ hregistered hindex hp,
      B.iterate_of_le _ _ ((List.length_map _).trans_le (hroom p hp)),
      h.recording.buffers r.tid p hp, h.valuesOf_eq]
    rfl
  refine ⟨hall, fun hone => ?_, .of_exec hrun⟩
  rw [hall, Process.drainedAs]
  congr 2
  refine List.filter_congr fun x hx => ?_
  obtain ⟨r', hr'⟩ := Option.ne_none_iff_exists'.mp (h.recording.opened x hx)
  have hfd : s.opened fd = some r := (Process.Opens.of_exec hrun).returned _ hr
  rw [hr', Option.any_some, decide_eq_decide]
  constructor
  · rintro ⟨htid, htype⟩
    exact hone x.fd r' hr' htid htype
  · intro heq
    rw [← heq, hr'] at hfd
    cases hfd
    exact ⟨rfl, rfl⟩

end ReadOut

set_option maxRecDepth 10000 in
/-- Each load metric gets the samples of both, and the store metric gets its own. -/
theorem attribution_three_metrics :
    ∃ s : Process .perf,
      (processMachine .x86 .intel .perf).exec (.init .perf) threeMetrics = some s ∧
      s.returned.length = 3 ∧ ∀ x ∈ s.returned,
        get_all_values (.last .perf) 100 s.plugin x.1.id
          = .writes (seriesOf (s.drainedAs x.1.tid (x.1.access_type .perf))) := by
  have hcond : (processMachine .x86 .intel .perf).Along Attributable (.init .perf)
      threeMetrics :=
    Machine.along_of_checks _ (b := fun s e => decide (Attributable s e))
      (fun _ _ => of_decide_eq_true) (by decide +kernel)
  have hlast : ((processMachine .x86 .intel .perf).exec (.init .perf) threeMetrics).map
      (fun s => (s.returned.length, s.drained.length)) = some (3, 3) := by
    decide +kernel
  obtain ⟨s, hrun, hs⟩ := Option.map_eq_some_iff.mp hlast
  obtain ⟨hreturned, hdrained⟩ := Prod.mk.inj hs
  refine ⟨s, hrun, hreturned, fun x hx => ?_⟩
  refine (attribution (.last .perf) hcond hrun (by decide) hx fun p hp => ?_).1
  have hattributed : s.Attributed .x86 := .of_exec hcond hrun
  rw [hattributed.recording.buffers _ p hp]
  exact (List.length_filter_le _ _).trans (hdrained.trans_le (by decide))

set_option maxRecDepth 10000 in
/-- **An id does not stand for the samples of its own event.**  The samples of `Load@1000`
are read out for `Load@2000` too. -/
theorem other_samples_read_out :
    ¬ ∀ (es : List ProcessEvent) (s : Process .perf) (r : Registration) (fd : Fd),
      (processMachine .x86 .intel .perf).Along Attributable (.init .perf) es →
      (processMachine .x86 .intel .perf).exec (.init .perf) es = some s →
      (r, fd) ∈ s.returned →
      (∀ p, s.plugin.thread_event_buffers_.lookup r.tid = some (some p) →
        (s.plugin.heap p).length ≤ 100) →
      get_all_values (.last .perf) 100 s.plugin r.id
        = .writes (seriesOf (s.drained.filter fun x => x.fd = fd)) := by
  intro hall
  have hcond : (processMachine .x86 .intel .perf).Along Attributable (.init .perf)
      threeMetrics :=
    Machine.along_of_checks _ (b := fun s e => decide (Attributable s e))
      (fun _ _ => of_decide_eq_true) (by decide +kernel)
  have hlast : ((processMachine .x86 .intel .perf).exec (.init .perf) threeMetrics).map
      (fun s => (s.drained.length, (s.returned.map fun x => (x.1.id, x.2))[1]?,
        (get_all_values (.last .perf) 100 s.plugin 1).count,
        (s.drained.filter fun x => x.fd = 4).length)) = some (3, some (1, 4), 2, 1) := by
    decide +kernel
  obtain ⟨s, hrun, hs⟩ := Option.map_eq_some_iff.mp hlast
  simp only [Prod.mk.injEq] at hs
  obtain ⟨hdrained, hsecond, hread, hown⟩ := hs
  rw [List.getElem?_map, Option.map_eq_some_iff] at hsecond
  obtain ⟨⟨r, fd⟩, hr, hids⟩ := hsecond
  obtain ⟨hid, rfl⟩ := Prod.mk.inj hids
  have hattributed : s.Attributed .x86 := .of_exec hcond hrun
  have hvalues := hall _ s r _ hcond hrun (List.mem_of_getElem? hr) fun p hp => by
    rw [hattributed.recording.buffers _ p hp]
    exact (List.length_filter_le _ _).trans (hdrained.trans_le (by decide))
  have hid' : r.id = 1 := hid
  rw [hid'] at hvalues
  rw [hvalues, ReadOut.count, seriesOf, List.length_map, hown] at hread
  cases hread

end AccessSampling
