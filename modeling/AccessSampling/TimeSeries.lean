import AccessSampling.Provenance

/-!
# The order of a time series

A handler reads the clock for each access it appends, and a thread id has one buffer, to which
its own handlers append.  So the times in a buffer are readings of the clock by handlers of its
thread id, in the order they were made; and a time series that is read out for a metric goes
forward in time if the clock does.

* `clockOf` — the readings of the clock by the handlers of a thread id.
* `Process.Timed` — the invariant: the times of a buffer are a subsequence of them.
* `time_series` — the result, about what is read out.

### From the buffer to the series

Between the two is `EventRingBuffer`, whose source is that of another library.  As long as a
buffer has room for all that has been appended, it yields it in order.  Later the oldest
entries have been overwritten, and nothing says where iterating begins: a buffer that begins
with its first *cell* yields the entries in two pieces, the later piece first, and the series
goes backward once.  So `time_series` asks that nothing has been overwritten, or that what is
left is yielded in order (`EventRingBuffer.InOrder`).

That the id leads to the buffer of the thread needs fewer than 2^31 calls of `add_metric`, as
in `registry_integrity`.
-/

namespace AccessSampling

open Foundation

variable {T : TraceEvents} {g : Geometry} {pfm : Pfm} {s s' : Process T} {e : ProcessEvent}

/-- The times of the steps of a thread id's handlers. -/
def clockOf (es : List ProcessEvent) (t : ThreadId) : List UInt64 :=
  es.filterMap fun
    | .sampling u (.handle now) => if u = t then some now else none
    | _ => none

/-- The times of entries. -/
def times (xs : List (Entry T)) : List UInt64 := xs.map fun x => x.event.time

theorem times_append (xs ys : List (Entry T)) : times (xs ++ ys) = times xs ++ times ys :=
  List.map_append

theorem clockOf_append (es fs : List ProcessEvent) (t : ThreadId) :
    clockOf (es ++ fs) t = clockOf es t ++ clockOf fs t := List.filterMap_append

/-- A step of a handler drains at most one access, and reads the clock for it. -/
theorem Sampler.times_drains {x x' : Sampler T} {now : UInt64} (hwired : x.thread.Wired g)
    (h : x.handle g now = some x') : (times (x.drains g now)).Sublist [now] := by
  by_cases hnone : x.drains g now = []
  · rw [hnone]
    exact List.nil_sublist _
  obtain ⟨y, hy⟩ := List.exists_mem_of_ne_nil _ hnone
  have hph := (Sampler.handle_heap h).2.2 y hy
  obtain ⟨ev, hev, hon⟩ := hwired.handler y.fd _ hph
  obtain ⟨rb, n, hat⟩ := hwired.rings y.fd ev hev hon
  obtain ⟨rb', m', n', -, -, ⟨hlt, -, -, hentry⟩ | ⟨-, -, -, hnil⟩⟩ :=
    Sampler.handle_draining hat hph h
  · rw [hentry, Record.entries]
    cases (ev.accepted[n]).access T with
    | none => exact List.nil_sublist _
    | some a => exact .refl _
  · exact absurd hnil hnone

/-- **The times of a buffer are readings of the clock**, each of them for one entry. -/
def Process.Timed (es : List ProcessEvent) (s : Process T) : Prop :=
  ∀ t p, s.plugin.thread_event_buffers_.lookup t = some (some p) →
    (times (s.plugin.heap p)).Sublist (clockOf es t)

/-- A step gives no thread id a buffer with entries. -/
theorem Process.Step.lookup_cases (h : Process.Step g pfm s e s') (hregistry : s.Registry)
    (howned : s.Owned) {t : ThreadId} {p : BufferPtr}
    (hp : s'.plugin.thread_event_buffers_.lookup t = some (some p)) :
    s.plugin.thread_event_buffers_.lookup t = some (some p) ∨ s'.plugin.heap p = [] := by
  cases h with
  | added =>
      rcases lookup_insert_cases hp with ⟨rfl, hnew⟩ | ⟨-, hold⟩
      · cases hnew
        refine Or.inr (List.eq_nil_iff_forall_not_mem.mpr fun x hx => ?_)
        -- no thread id has the buffer yet
        obtain ⟨r, -, hr⟩ := howned.entries _ x hx
        obtain ⟨q, hq, heq⟩ := hregistry.allocated r.tid _ hr
        cases heq
        exact Nat.lt_irrefl _ hq
      · exact Or.inl hold
  | _ => exact Or.inl hp

theorem Process.Timed.step {es : List ProcessEvent} (h : s.Timed es) (hregistry : s.Registry)
    (howned : s.Owned) (hwired : ∀ t k, s.threads t = some k → s.WiredTask g k)
    (hstep : Process.Step g pfm s e s') : s'.Timed (es ++ [e]) := by
  intro t p hp
  rcases hstep.lookup_cases hregistry howned hp with hold | hempty
  · rw [clockOf_append]
    have hbefore := h t p hold
    obtain ⟨hheap, -, -⟩ | ⟨u, k, f, x, rfl, hk, hnext, hs'⟩ := hstep.drains
    · rw [hheap]
      exact hbefore.trans (List.sublist_append_left _ _)
    obtain ⟨hheap, -, -⟩ := Sampler.next_heap hnext
    have hheap' : s'.plugin.heap = x.heap := by
      rw [hs']
      rfl
    rw [hheap', hheap]
    cases hdata : k.thread.event_data_ with
    | none =>
        rw [Heap.extend_none]
        exact hbefore.trans (List.sublist_append_left _ _)
    | some q =>
        rw [Heap.extend_some]
        by_cases hpq : p = q
        · subst hpq
          -- the thread that appends has this thread id
          have htu := hregistry.injective t u _ hold (howned.buffer u k hk p hdata)
          subst htu
          rw [Function.update_self, times_append]
          refine hbefore.append ?_
          cases f with
          | handle now =>
              have htimes := Sampler.times_drains (x := ⟨k.thread, s.plugin.heap⟩)
                (hwired t k hk).wired hnext
              simpa [clockOf, drainedBy] using htimes
          | sample => exact List.nil_sublist _
          | deliver => exact List.nil_sublist _
        · rw [Function.update_of_ne hpq]
          exact hbefore.trans (List.sublist_append_left _ _)
  · rw [hempty]
    exact List.nil_sublist _

theorem Process.Timed.of_exec {es : List ProcessEvent}
    (hrun : (processMachine g pfm T).exec (.init T) es = some s) : s.Timed es :=
  (processMachine g pfm T).exec_past (I := fun es s => s.Timed es) (fun _ _ hp => by cases hp)
    (fun _ _ _ _ hrun h hnext => h.step (.of_exec hrun) (.of_exec hrun)
      (Process.WiredTask.of_exec hrun) (Process.step_of_next hnext)) hrun

/-- A buffer yields what it has kept in the order in which it was appended.  As long as nothing
is overwritten this is what `EventRingBuffer` promises; what is documented for later is only
that the oldest entries are the ones to go, not where iterating begins. -/
def EventRingBuffer.InOrder (B : EventRingBuffer T) (capacity : ℕ)
    (events : List (AccessEvent T)) : Prop :=
  (B.iterate capacity events).Sublist events

theorem EventRingBuffer.inOrder_of_le (B : EventRingBuffer T) {capacity : ℕ}
    {events : List (AccessEvent T)} (h : events.length ≤ capacity) :
    B.InOrder capacity events := by
  rw [InOrder, B.iterate_of_le capacity events h]

/-- **A time series goes forward in time.**  In any run with fewer than 2^31 calls of
`add_metric`, in which the kernel writes nothing but samples into the rings, `get_all_values`
finds for the id of a metric the buffer of the thread that has added it.  If no entry has been
overwritten, or if the buffer yields in order those that have not, then it writes a series of
accesses, none of them at address zero, whose times are readings of the clock by the handlers of
that thread id, in the order of the readings. -/
theorem time_series {es : List ProcessEvent} (B : EventRingBuffer T) (buffer_size_ : ℕ)
    (hrun : (processMachine g pfm T).exec (.init T) es = some s)
    (hcalls : es.countP ProcessEvent.isCall < 2 ^ 31) {r : Registration} {fd : Fd}
    (hr : (r, fd) ∈ s.returned) :
    ∃ p values, s.plugin.thread_event_buffers_.lookup r.tid = some (some p) ∧
      get_all_values B buffer_size_ s.plugin r.id = .writes values ∧
      ((s.plugin.heap p).length ≤ buffer_size_ ∨
          B.InOrder buffer_size_ ((s.plugin.heap p).map Entry.event) →
        (∀ v ∈ values, v.2 ≠ 0) ∧ (values.map Prod.fst).Sublist (clockOf es r.tid) ∧
        ((clockOf es r.tid).Pairwise (· ≤ ·) → (values.map Prod.fst).Pairwise (· ≤ ·))) := by
  have hregistry : s.Registry := .of_exec hrun
  have hregistered : s.Registered r := hregistry.returned _ hr
  obtain ⟨p, hp⟩ := hregistry.buffer _ (List.mem_of_getElem? hregistered.entry)
  have hindex : r.index < 2 ^ 31 :=
    hregistered.index_lt.trans ((Process.length_le_calls hrun).trans_lt hcalls)
  have hread := get_all_values_eq B buffer_size_ hregistered hindex hp
  refine ⟨p, _, hp, hread, fun hkeeps => ?_⟩
  have hkept : (B.iterate buffer_size_ ((s.plugin.heap p).map Entry.event)).Sublist
      ((s.plugin.heap p).map Entry.event) :=
    hkeeps.elim (fun hroom => B.inOrder_of_le ((List.length_map _).trans_le hroom)) id
  generalize B.iterate buffer_size_ ((s.plugin.heap p).map Entry.event) = events at hkept ⊢
  have hsublist : ((valuesOf (T.accessTypeFromString r.event) events).map Prod.fst).Sublist
      (clockOf es r.tid) := by
    have hvalues : ((valuesOf (T.accessTypeFromString r.event) events).map Prod.fst).Sublist
        (times (s.plugin.heap p)) := by
      have htimes : times (s.plugin.heap p)
          = ((s.plugin.heap p).map Entry.event).map fun event => event.time := by
        rw [times, List.map_map]
        rfl
      rw [valuesOf, List.map_map, htimes]
      exact (List.filter_sublist.trans hkept).map _
    exact hvalues.trans (Process.Timed.of_exec hrun r.tid p hp)
  refine ⟨fun v hv => ?_, hsublist, fun hclock => hclock.sublist hsublist⟩
  obtain ⟨event, hevent, rfl⟩ := List.mem_map.mp hv
  obtain ⟨x, hx, rfl⟩ := List.mem_map.mp (hkept.subset (List.mem_filter.mp hevent).1)
  exact Process.address_ne_zero hrun hx

/-- A sample is taken, and drained when the clock shows `now`. -/
def sampleStepsAt (t : ThreadId) (fd : Fd) (e : SamplingEvent) (now : UInt64) :
    List ProcessEvent :=
  .sampling t (.sample fd e) :: .sampling t .deliver
    :: List.replicate 5 (.sampling t (.handle now))

/-- A thread takes three samples of its loads, while time passes. -/
def threeLoads : List ProcessEvent :=
  .start ⟨1⟩ false :: addSteps ⟨1⟩ "Load@1000".toList (.success 3 fun _ => 0) 1
    ++ sampleStepsAt ⟨1⟩ 3 aLoad 5 ++ sampleStepsAt ⟨1⟩ 3 aLoad 6 ++ sampleStepsAt ⟨1⟩ 3 aLoad 9

set_option maxRecDepth 10000 in
/-- The buffer has room for two of them. -/
theorem time_series_three_loads :
    ∃ (s : Process .perf) (r : Registration) (fd : Fd) (values : List (UInt64 × UInt64)),
      (processMachine .x86 .intel .perf).exec (.init .perf) threeLoads = some s ∧
      s.returned = [(r, fd)] ∧
      get_all_values (.last .perf) 2 s.plugin r.id = .writes values ∧ values.length = 2 ∧
      (values.map Prod.fst).Pairwise (· ≤ ·) := by
  have hlast : ((processMachine .x86 .intel .perf).exec (.init .perf) threeLoads).map
      (fun s => (s.returned.map fun x => (x.1.id, x.1.tid),
        (get_all_values (.last .perf) 2 s.plugin 0).count)) = some ([(0, ⟨1⟩)], 2) := by
    decide +kernel
  obtain ⟨s, hrun, hs⟩ := Option.map_eq_some_iff.mp hlast
  obtain ⟨hids, hcount⟩ := Prod.mk.inj hs
  obtain ⟨⟨r, fd⟩, hreturned, hids⟩ := List.map_eq_singleton_iff.mp hids
  obtain ⟨hid, htid⟩ := Prod.mk.inj hids
  obtain ⟨p, values, -, hread, hkept⟩ := time_series (.last .perf) 2 hrun (by decide)
    (hreturned ▸ List.mem_singleton_self _)
  obtain ⟨-, -, hforward⟩ := hkept (Or.inr (List.drop_sublist _ _))
  refine ⟨s, r, fd, values, hrun, hreturned, hread, ?_, hforward ?_⟩
  · rw [← hid] at hcount
    rwa [hread] at hcount
  · rw [htid]
    decide

end AccessSampling
