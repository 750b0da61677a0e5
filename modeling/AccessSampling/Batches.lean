import AccessSampling.Opened

/-!
# Handler runs

Records are produced on the rings of a thread, and from time to time the handler
runs for one of its events; the event is disabled while it does.  A schedule of
`batchMachine` says how the production is cut into runs.

`drain_filterMap` is what follows from `signal_handler_eq` along any schedule: what
the thread's buffer says about an event is the filter-map of the records that were
read, so it does not depend on the cuts.

Here a handler run is one step, and in exchange **the records may be of any type**:
`WellFormed` asks that each be laid out as its type says, and that one that reaches the end
of the data area fit `event_copy_`.  This is where the records that are not samples are
shown to be passed over without a trace in the buffer.
-/

namespace AccessSampling

open Foundation

inductive BatchEvent where
  /-- The kernel has a record for the ring of `fd`. -/
  | produce (fd : Fd) (r : Record)
  /-- `signal_handler` runs for `fd`; `clock i` is the time of its round `i`. -/
  | run (fd : Fd) (clock : ℕ → UInt64)

section Batches

variable {T : TraceEvents} {g : Geometry} {s s' : Sampler T} {p : BufferPtr} {fds : List Fd}

/-- Production and handler runs.  A ring never holds as many records as the data area
has bytes, so that many rounds are enough for any run. -/
def batchMachine (g : Geometry) (T : TraceEvents) : Machine (Sampler T) BatchEvent where
  next s
    | .produce fd r => (s.thread.produce g fd r).map fun (_, th) => ⟨th, s.heap⟩
    | .run fd clock => (s.signal_handler g clock g.capacity fd).map Prod.snd

/-- What is produced is laid out as its type says, and fits `event_copy_` if it reaches
the end of the data area. -/
def WellFormed (g : Geometry) (s : Sampler T) : BatchEvent → Prop
  | .produce fd r => r.LaidOut ∧ ∀ m, s.thread.mmapOf fd = some m →
      (m.append g r).isSome → EndFits g m.data_head.toNat r
  | .run _ _ => True

/-- **The buffer follows the rings**: it holds the accesses of the records that have
been read, event by event and in order. -/
structure Sampler.Follows (g : Geometry) (p : BufferPtr) (fds : List Fd) (s : Sampler T) :
    Prop where
  buffer : s.thread.event_data_ = some p
  mem_rings : ∀ fd, fd ∈ s.thread.ring_buffers_ ↔ fd ∈ fds
  rings : ∀ fd ∈ fds, ∃ rb ev n, s.thread.At g fd rb ev n ∧
    accesses fd (s.heap p) = (ev.accepted.take n).filterMap (Record.access T)
  only : ∀ x ∈ s.heap p, x.fd ∈ fds

/-- A ring never holds as many records as the data area has bytes. -/
theorem Reading.unread_lt {ev : PerfEvent} {rb : PerfRingBuffer} {n : ℕ}
    (h : Reading g ev rb n) : ev.accepted.length - n < g.capacity := by
  obtain ⟨-, -, m, t, q, -, hholds, -⟩ := h
  have hwithin := hholds.within
  have htail := hholds.tail_le
  have hcap := g.capacity_pos
  have hsize : ∀ rs : List Record, 8 * rs.length ≤ streamSize rs := by
    intro rs
    induction rs with
    | nil => exact le_rfl
    | cons r rs ih =>
        have := r.size_ge
        rw [List.length_cons, streamSize_cons]
        have hr : r.size = r.bytes.length := rfl
        omega
  have := hsize (ev.accepted.drop n)
  rw [List.length_drop] at this
  omega

/-- The thread `opened`, with empty buffers. -/
def Sampler.opened (g : Geometry) (T : TraceEvents) (attr : Fd → PerfEventAttribute)
    (data : Fd → ℕ → UInt8) (p : BufferPtr) (d : Descriptors) : Sampler T :=
  ⟨Thread.opened g attr data p d.fds, fun _ => []⟩

namespace Sampler.Follows

/-- A step that concerns one ring, and appends entries of that ring only. -/
theorem frame (h : s.Follows g p fds) {fd : Fd} {rb : PerfRingBuffer} {ev : PerfEvent} {k : ℕ}
    {xs : List (Entry T)} (hfd : fd ∈ fds)
    (hsame : s.thread.SameBut fd s'.thread) (hat : s'.thread.At g fd rb ev k)
    (hheap : s'.heap p = s.heap p ++ xs) (hxs : ∀ x ∈ xs, x.fd = fd)
    (hlog : accesses fd (s'.heap p) = (ev.accepted.take k).filterMap (Record.access T)) :
    s'.Follows g p fds := by
  refine ⟨hsame.event_data_.trans h.buffer, fun x => ?_, fun x hx => ?_, fun x hx => ?_⟩
  · rw [← h.mem_rings x]
    by_cases hx : x = fd
    · subst hx
      have hring : x ∈ s'.thread.ring_buffers_ :=
        AList.lookup_isSome.mp (Option.isSome_of_eq_some hat.ring)
      simp [hring, (h.mem_rings x).mpr hfd]
    · rw [← AList.lookup_isSome, ← AList.lookup_isSome, hsame.rings x hx]
  · by_cases hxfd : x = fd
    · subst hxfd
      exact ⟨rb, ev, k, hat, hlog⟩
    · obtain ⟨rb', ev', n, hat', hlog'⟩ := h.rings x hx
      refine ⟨rb', ev', n, hsame.at hxfd hat', ?_⟩
      have hnone : accesses x xs = [] :=
        accesses_of_forall_ne fun y hy => hxs y hy ▸ Ne.symm hxfd
      rw [hheap, accesses_append, hnone, List.append_nil]
      exact hlog'
  · rw [hheap, List.mem_append] at hx
    rcases hx with hx | hx
    · exact h.only x hx
    · exact hxs x hx ▸ hfd

theorem opened (attr : Fd → PerfEventAttribute) (data : Fd → ℕ → UInt8) (d : Descriptors) :
    (Sampler.opened g T attr data p d).Follows g p d.fds := by
  have h : Thread.IsOpened g attr data p d.fds (Thread.opened g attr data p d.fds) :=
    Thread.isOpened_opened d.nodup d.pos
  exact ⟨h.event_data_, fun _ => h.mem_rings_iff,
    fun fd hfd => ⟨_, _, 0, h.at_of_mem hfd (d.pos fd hfd), rfl⟩, fun _ hx => by cases hx⟩

/-- Only the members, the events and the buffers matter. -/
theorem congr (h : s.Follows g p fds) {th : Thread}
    (hrings : th.ring_buffers_ = s.thread.ring_buffers_)
    (hdata : th.event_data_ = s.thread.event_data_) (hevents : th.events = s.thread.events) :
    (⟨th, s.heap⟩ : Sampler T).Follows g p fds := by
  refine ⟨hdata.trans h.buffer, fun x => ?_, fun x hx => ?_, h.only⟩
  · rw [hrings]
    exact h.mem_rings x
  · obtain ⟨rb, ev, n, hat, hlog⟩ := h.rings x hx
    exact ⟨rb, ev, n, ⟨hrings ▸ hat.ring, hevents ▸ hat.event, hat.reading⟩, hlog⟩

/-- A change of one event that spares its mapping and its records. -/
theorem modify (h : s.Follows g p fds) (fd : Fd) (f : PerfEvent → PerfEvent)
    (hmmap : ∀ ev, (f ev).mmap = ev.mmap) (haccepted : ∀ ev, (f ev).accepted = ev.accepted) :
    (⟨s.thread.modify fd f, s.heap⟩ : Sampler T).Follows g p fds := by
  refine ⟨h.buffer, h.mem_rings, fun x hx => ?_, h.only⟩
  obtain ⟨rb, ev, n, hat, hlog⟩ := h.rings x hx
  by_cases hxfd : x = fd
  · subst hxfd
    refine ⟨rb, f ev, n, hat.modify f (hat.reading.congr (hmmap ev) (haccepted ev)), ?_⟩
    rw [haccepted]
    exact hlog
  · exact ⟨rb, ev, n, (s.thread.sameBut_modify fd f).at hxfd hat, hlog⟩

theorem produce (h : s.Follows g p fds) {fd : Fd} {r : Record} {accepted : Bool}
    {th : Thread} (hwf : WellFormed g s (.produce fd r))
    (hproduce : s.thread.produce g fd r = some (accepted, th)) :
    (⟨th, s.heap⟩ : Sampler T).Follows g p fds := by
  obtain ⟨ev, hev, -, ⟨-, rfl⟩ | ⟨-, ev', hev', rfl⟩⟩ := Thread.produce_cases hproduce
  · exact h
  have hsame := s.thread.sameBut_modify fd fun _ => ev'
  by_cases hfd : fd ∈ fds
  · obtain ⟨rb, ev₁, n, hat, hlog⟩ := h.rings fd hfd
    cases hat.event.symm.trans hev
    have hfit : ∀ m, ev.mmap = some m → (m.append g r).isSome →
        EndFits g m.data_head.toNat r := by
      intro m hm
      exact hwf.2 m (by rw [Thread.mmapOf, hev, Option.bind_some, hm])
    obtain ⟨hreading, haccepted⟩ := hat.reading.produce hwf.1 hfit hev'
    have hlog' : accesses fd (s.heap p)
        = (ev'.accepted.take n).filterMap (Record.access T) := by
      rw [haccepted, List.take_append_of_le_length hat.reading.le]
      exact hlog
    have hheap : s.heap p = s.heap p ++ [] := (List.append_nil _).symm
    exact h.frame hfd hsame (hat.modify _ hreading) hheap (by simp) hlog'
  · -- an event without a ring
    refine ⟨h.buffer, h.mem_rings, fun x hx => ?_, h.only⟩
    obtain ⟨rb, ev₁, n, hat, hlog⟩ := h.rings x hx
    exact ⟨rb, ev₁, n, hsame.at (fun heq => hfd (heq ▸ hx)) hat, hlog⟩

theorem run (h : s.Follows g p fds) {fd : Fd} {clock : ℕ → UInt64}
    (hnext : (batchMachine g T).next s (.run fd clock) = some s') : s'.Follows g p fds := by
  obtain ⟨⟨calls, s'⟩, hrun, rfl⟩ := Option.map_eq_some_iff.mp hnext
  by_cases hfd : fd ∈ fds
  · obtain ⟨rb, ev, n, hat, hlog⟩ := h.rings fd hfd
    obtain ⟨th', rb', m', heq, hat', hsame, -, -⟩ :=
      signal_handler_eq clock hat hat.reading.unread_lt
    cases heq.symm.trans hrun
    have hheap : s.heap.extend s.thread.event_data_
        (entries T clock fd 0 (ev.accepted.drop n)) p
        = s.heap p ++ entries T clock fd 0 (ev.accepted.drop n) := by
      rw [h.buffer, Heap.extend_some, Function.update_self]
    refine h.frame hfd hsame hat' hheap (fun x hx => fd_of_mem_entries hx) ?_
    simp only [hheap, accesses_append, hlog, accesses_entries]
    rw [← List.filterMap_append, List.take_append_drop, List.take_length]
  · -- an event without a ring
    have hdisabled : fd ∉ (s.thread.disable_fd fd).ring_buffers_ :=
      mt (h.mem_rings fd).mp hfd
    simp only [Sampler.signal_handler, if_neg hdisabled, Option.map_some,
      Option.some.injEq, Prod.mk.injEq] at hrun
    obtain ⟨-, rfl⟩ := hrun
    have hsame := (s.thread.sameBut_modify fd fun ev => { ev with enabled := false }).trans
      ((s.thread.disable_fd fd).sameBut_modify fd fun ev => { ev with enabled := true })
    refine ⟨h.buffer, h.mem_rings, fun x hx => ?_, h.only⟩
    obtain ⟨rb, ev₁, n, hat, hlog⟩ := h.rings x hx
    exact ⟨rb, ev₁, n, hsame.at (fun heq => hfd (heq ▸ hx)) hat, hlog⟩

theorem step (h : s.Follows g p fds) {e : BatchEvent} (hwf : WellFormed g s e)
    (hnext : (batchMachine g T).next s e = some s') : s'.Follows g p fds := by
  cases e with
  | produce fd r =>
      obtain ⟨⟨accepted, th⟩, hproduce, rfl⟩ := Option.map_eq_some_iff.mp hnext
      exact h.produce hwf hproduce
  | run fd clock => exact h.run hnext

end Sampler.Follows

/-- The reader of `fd` has read everything. -/
def Thread.CaughtUp (th : Thread) (fd : Fd) : Prop :=
  ∃ rb m, th.ring_buffers_.lookup fd = some rb ∧ th.mmapOf fd = some m ∧
    rb.prev_ = m.data_head

/-- The records the kernel has accepted for `fd`. -/
def Thread.accepted (th : Thread) (fd : Fd) : List Record :=
  ((th.events fd).map PerfEvent.accepted).getD []

/-- What a buffer says about an event whose records have all been read. -/
theorem Sampler.Follows.accesses_of_caughtUp (h : s.Follows g p fds) {fd : Fd}
    (hcaught : s.thread.CaughtUp fd) :
    accesses fd (s.heap p) = (s.thread.accepted fd).filterMap (Record.access T) := by
  obtain ⟨rb, m, hrb, hm, hprev⟩ := hcaught
  have hfd : fd ∈ fds :=
    (h.mem_rings fd).mp (AList.lookup_isSome.mp (Option.isSome_of_eq_some hrb))
  obtain ⟨rb', ev, n, hat, hlog⟩ := h.rings fd hfd
  cases hat.ring.symm.trans hrb
  have hmmap : ev.mmap = some m := by
    rw [Thread.mmapOf, hat.event, Option.bind_some] at hm
    exact hm
  have hn := (hat.reading.prev_eq_head_iff hmmap).mp hprev
  rw [hlog, hn, List.take_length, Thread.accepted, hat.event]
  rfl

/-- **Handler runs are the ordered filter-map of the record stream.**  After any
production and any handler runs, for every event of the thread:

* the buffer says of it what the filter-map of its first `n` records says;
* a handler run makes one call of `read` for every other record and one more, appends
  the entries of those records in order, leaves `prev_`, `data_tail` and `data_head`
  equal, and changes nothing that belongs to another descriptor;

and two schedules that have produced the same records, and have read all of them,
leave the same accesses of every event in the buffer, however they are cut into runs;
if the thread has one event, they leave the same buffer, apart from times. -/
theorem drain_filterMap (attr : Fd → PerfEventAttribute) (data : Fd → ℕ → UInt8)
    (p : BufferPtr) (d : Descriptors) {es : List BatchEvent} {s : Sampler T}
    (hwf : (batchMachine g T).Along (WellFormed g) (Sampler.opened g T attr data p d) es)
    (hrun : (batchMachine g T).exec (Sampler.opened g T attr data p d) es = some s) :
    (∀ fd ∈ d.fds, ∃ rb ev n, s.thread.At g fd rb ev n ∧
      accesses fd (s.heap p) = (ev.accepted.take n).filterMap (Record.access T) ∧
      ∀ clock fuel, ev.accepted.length - n < fuel → ∃ th' rb' m',
        s.signal_handler g clock fuel fd = some (ev.accepted.length - n + 1,
          ⟨th', Function.update s.heap p
            (s.heap p ++ entries T clock fd 0 (ev.accepted.drop n))⟩) ∧
        (entries T clock fd 0 (ev.accepted.drop n)).map (fun x => x.event.toAccess)
          = (ev.accepted.drop n).filterMap (Record.access T) ∧
        th'.At g fd rb' { ev with mmap := some m', enabled := true } ev.accepted.length ∧
        m'.data_tail = rb'.prev_ ∧ m'.data_head = rb'.prev_ ∧ s.thread.SameBut fd th') ∧
    ∀ es' s', (batchMachine g T).Along (WellFormed g) (Sampler.opened g T attr data p d) es' →
      (batchMachine g T).exec (Sampler.opened g T attr data p d) es' = some s' →
      (∀ fd ∈ d.fds, s.thread.CaughtUp fd ∧ s'.thread.CaughtUp fd ∧
        s.thread.accepted fd = s'.thread.accepted fd) →
      (∀ fd ∈ d.fds, accesses fd (s.heap p) = accesses fd (s'.heap p)) ∧
      (∀ fd, d.fds = [fd] → (s.heap p).map (fun x => x.event.toAccess)
        = (s'.heap p).map fun x => x.event.toAccess) := by
  have hfollows : ∀ {es s}, (batchMachine g T).Along (WellFormed g)
        (Sampler.opened g T attr data p d) es →
      (batchMachine g T).exec (Sampler.opened g T attr data p d) es = some s →
      s.Follows g p d.fds := fun hwf hrun =>
    (batchMachine g T).exec_invariant (I := Sampler.Follows g p d.fds)
      (fun _ _ _ h hwf hnext => h.step hwf hnext) (.opened attr data d) hwf hrun
  have h := hfollows hwf hrun
  refine ⟨fun fd hfd => ?_, fun es' s' hwf' hrun' hread => ?_⟩
  · obtain ⟨rb, ev, n, hat, hlog⟩ := h.rings fd hfd
    refine ⟨rb, ev, n, hat, hlog, fun clock fuel hfuel => ?_⟩
    obtain ⟨th', rb', m', heq, hat', hsame, htail, hhead⟩ :=
      signal_handler_eq clock hat hfuel
    rw [h.buffer, Heap.extend_some] at heq
    refine ⟨th', rb', m', heq, ?_, hat', htail, hhead, hsame⟩
    rw [← accesses_entries clock fd 0, accesses_of_forall_eq fun x => fd_of_mem_entries]
  · have h' := hfollows hwf' hrun'
    have hsame : ∀ fd ∈ d.fds, accesses fd (s.heap p) = accesses fd (s'.heap p) := by
      intro fd hfd
      obtain ⟨hcaught, hcaught', haccepted⟩ := hread fd hfd
      rw [h.accesses_of_caughtUp hcaught, h'.accesses_of_caughtUp hcaught', haccepted]
    refine ⟨hsame, fun fd hone => ?_⟩
    have hall := hsame fd (hone ▸ List.mem_singleton_self fd)
    rwa [accesses_of_forall_eq fun x hx => List.mem_singleton.mp (hone ▸ h.only x hx),
      accesses_of_forall_eq fun x hx => List.mem_singleton.mp (hone ▸ h'.only x hx)] at hall

/-- A record that `event_copy_` can hold is well formed anywhere. -/
theorem wellFormed_of_le {fd : Fd} {r : Record} (hlaid : r.LaidOut)
    (hsize : r.size ≤ PERF_SAMPLE_MAX_SIZE) : WellFormed g s (.produce fd r) :=
  ⟨hlaid, fun _ _ _ _ => hsize⟩

end Batches

set_option maxRecDepth 10000 in
/-- Two samples of a thread with one event, and a run of the handler after each; the
second has no address. -/
theorem drain_filterMap_two_runs :
    let attr := samplingAttribute 128 1000 0x1cd
    let e₁ : SamplingEvent := ⟨0, 0x401000, 0x7ffe0010, 0x2⟩
    let e₂ : SamplingEvent := ⟨0, 0x401004, 0, 0x4⟩
    let d : Descriptors := ⟨[3], by decide, by decide⟩
    let es : List BatchEvent :=
      [.produce 3 e₁.record, .run 3 fun _ => 7, .produce 3 e₂.record, .run 3 fun _ => 8]
    ∃ s, (batchMachine .x86 .perf).exec
        (Sampler.opened .x86 .perf (fun _ => attr) (fun _ _ => 0) 0 d) es = some s ∧
      (s.heap 0).map (fun x => (x.event.time, x.event.address)) = [(7, 0x7ffe0010)] ∧
      ∃ rb ev n, s.thread.At .x86 3 rb ev n ∧
        accesses 3 (s.heap 0) = (ev.accepted.take n).filterMap (Record.access .perf) := by
  intro attr e₁ e₂ d es
  have hwf : (batchMachine .x86 .perf).Along (WellFormed .x86)
      (Sampler.opened .x86 .perf (fun _ => attr) (fun _ _ => 0) 0 d) es := by
    refine Machine.along_of_forall_mem _ fun e he s => ?_
    simp only [es, List.mem_cons, List.not_mem_nil, or_false] at he
    rcases he with rfl | rfl | rfl | rfl
    · exact wellFormed_of_le e₁.laidOut_record e₁.size_record_le
    · trivial
    · exact wellFormed_of_le e₂.laidOut_record e₂.size_record_le
    · trivial
  have hheap : ((batchMachine .x86 .perf).exec
      (Sampler.opened .x86 .perf (fun _ => attr) (fun _ _ => 0) 0 d) es).map
        (fun s => (s.heap 0).map fun x => (x.event.time, x.event.address))
      = some [(7, 0x7ffe0010)] := by
    decide +kernel
  obtain ⟨s, hrun, hs⟩ := Option.map_eq_some_iff.mp hheap
  obtain ⟨hrings, -⟩ := drain_filterMap (fun _ => attr) (fun _ _ => 0) 0 d hwf hrun
  obtain ⟨rb, ev, n, hat, hlog, -⟩ := hrings 3 (by decide)
  exact ⟨s, hrun, hs, rb, ev, n, hat, hlog⟩

end AccessSampling
