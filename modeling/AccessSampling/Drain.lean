import AccessSampling.PerfSampling

/-!
# Draining a ring

`process_events` calls `read` until it returns null, and appends an event of every
sample with an address.  What it does is fixed by one list, the records of the ring
it has not been handed yet:

* `Reading` — a ring whose reader has been handed the first `n` accepted records;
* `processNext_behind`, `processNext_caught` — one round of the loop;
* `process_events_eq` — the loop: one call of `read` for each unread record and one
  more, and the `entries` of those records in order;
* `signal_handler_eq` — the handler, which leaves everything but its ring alone.

`drain_filterMap` is about any number of handler runs with records produced in
between.  What a thread's buffer says about one event is the ordered filter-map of
the records of that event, however their production is cut into runs.
-/

namespace AccessSampling

open Foundation

/-! ## One ring -/

/-- The reader `rb` of the event has been handed its first `n` records. -/
structure Reading (g : Geometry) (ev : PerfEvent) (rb : PerfRingBuffer) (n : ℕ) : Prop where
  le : n ≤ ev.accepted.length
  laidOut : ∀ r ∈ ev.accepted, r.LaidOut
  holds : ∃ m t p, ev.mmap = some m ∧ RingHolds g m rb t p (ev.accepted.drop n) ∧
    EndFitsAll g p (ev.accepted.drop n)

namespace Reading

variable {g : Geometry} {ev ev' : PerfEvent} {rb : PerfRingBuffer} {m : PerfMmap}
variable {n : ℕ}

/-- Only the mapping and the records matter. -/
theorem congr (h : Reading g ev rb n) (hmmap : ev'.mmap = ev.mmap)
    (haccepted : ev'.accepted = ev.accepted) : Reading g ev' rb n := by
  obtain ⟨hle, hlaid, hholds⟩ := h
  rw [← hmmap, ← haccepted] at hholds
  rw [← haccepted] at hle hlaid
  exact ⟨hle, hlaid, hholds⟩

/-- A fresh mapping and a fresh reader. -/
theorem new (data : ℕ → UInt8) (hmmap : ev.mmap = some ⟨0, 0, data⟩)
    (haccepted : ev.accepted = []) : Reading g ev (PerfRingBuffer.new g) 0 := by
  refine ⟨Nat.zero_le _, ?_, ⟨0, 0, data⟩, 0, 0, hmmap, ?_, ?_⟩
  · simp [haccepted]
  · rw [haccepted]
    exact RingHolds.init g data
  · rw [haccepted]
    exact trivial

/-- What the kernel accepts joins the records of the event. -/
theorem produce (h : Reading g ev rb n) {r : Record} (hlaid : r.LaidOut)
    (hfit : ∀ m, ev.mmap = some m → (m.append g r).isSome →
      EndFits g m.data_head.toNat r)
    (hproduce : ev.produce g r = some ev') :
    Reading g ev' rb n ∧ ev'.accepted = ev.accepted ++ [r] := by
  obtain ⟨hle, hall, m, t, p, hm, hholds, hfits⟩ := h
  rw [PerfEvent.produce, hm, Option.bind_some, Option.map_eq_some_iff] at hproduce
  obtain ⟨m', happend, rfl⟩ := hproduce
  have hpos : m.data_head.toNat % g.capacity
      = (p + streamSize (ev.accepted.drop n)) % g.capacity := by
    rw [hholds.head_eq, g.toNat_ofNat_mod]
  have hend := (EndFits.congr hpos).mp (hfit m hm (by rw [happend]; rfl))
  have hdrop : (ev.accepted ++ [r]).drop n = ev.accepted.drop n ++ [r] :=
    List.drop_append_of_le_length hle
  refine ⟨⟨by simp; omega, fun a ha => ?_, m', t, p, rfl, ?_, ?_⟩, rfl⟩
  · rcases List.mem_append.mp ha with ha | ha
    · exact hall a ha
    · exact List.mem_singleton.mp ha ▸ hlaid
  · rw [hdrop]
    exact hholds.append_holds happend
  · rw [hdrop]
    exact endFitsAll_concat.mpr ⟨hfits, hend⟩

/-- **A reader that is behind** is handed the next record. -/
theorem read_behind (h : Reading g ev rb n) (hm : ev.mmap = some m)
    (hlt : n < ev.accepted.length) :
    ∃ res ptr, rb.read g m = some res ∧ res.event = some ptr ∧
      (∀ i < (ev.accepted[n]).bytes.length,
        ptr.load g res.mmap res.buffer i = (ev.accepted[n]).bytes[i]?) ∧
      Reading g { ev with mmap := some res.mmap } res.buffer (n + 1) := by
  obtain ⟨hle, hall, m', t, p, hm', hholds, hfits⟩ := h
  cases hm.symm.trans hm'
  have hdrop : ev.accepted.drop n = ev.accepted[n] :: ev.accepted.drop (n + 1) :=
    List.drop_eq_getElem_cons hlt
  have hne : rb.prev_ ≠ m.data_head := by
    rw [hholds.head_eq]
    refine mt (hholds.prev_eq_iff le_rfl).mp (streamSize_pos ?_).ne'
    rw [hdrop]
    exact List.cons_ne_nil _ _
  rw [hdrop] at hholds hfits
  obtain ⟨res, hread, hout, hrest⟩ := hholds.read_holds_cons hne hfits.1
  obtain ⟨ptr, hptr, hbytes⟩ := hout.event_eq
  rw [← hout.mmap_eq] at hbytes
  exact ⟨res, ptr, hread, hptr, hbytes, hlt, hall, res.mmap, t, _, rfl, hrest, hfits.2⟩

/-- **A reader that has caught up** publishes its position. -/
theorem read_caught (h : Reading g ev rb ev.accepted.length) (hm : ev.mmap = some m) :
    ∃ m', rb.read g m = some ⟨none, [], rb, m'⟩ ∧
      Reading g { ev with mmap := some m' } rb ev.accepted.length ∧
      m'.data_tail = rb.prev_ ∧ m'.data_head = rb.prev_ := by
  obtain ⟨hle, hall, m', t, p, hm', hholds, hfits⟩ := h
  cases hm.symm.trans hm'
  have hhead : m.data_head = rb.prev_ := by
    rw [hholds.head_eq, hholds.prev_eq, List.drop_length, streamSize_nil, Nat.add_zero]
  obtain ⟨m', hread, hrest⟩ := hholds.read_holds_nil hhead.symm
  refine ⟨m', hread, ⟨hle, hall, m', p, p, rfl, hrest, hfits⟩, ?_, ?_⟩
  · rw [hrest.tail_eq, hrest.prev_eq]
  · rw [hrest.head_eq, hrest.prev_eq, List.drop_length, streamSize_nil, Nat.add_zero]

/-- The reader stands at the kernel's position exactly when it has been handed
everything. -/
theorem prev_eq_head_iff (h : Reading g ev rb n) (hm : ev.mmap = some m) :
    rb.prev_ = m.data_head ↔ n = ev.accepted.length := by
  obtain ⟨hle, -, m', t, p, hm', hholds, -⟩ := h
  cases hm.symm.trans hm'
  rw [hholds.head_eq, hholds.prev_eq_iff le_rfl]
  constructor
  · intro hzero
    by_contra hne
    have hdrop : ev.accepted.drop n ≠ [] := by
      rw [Ne, List.drop_eq_nil_iff]
      omega
    exact (streamSize_pos hdrop).ne' hzero
  · rintro rfl
    rw [List.drop_length, streamSize_nil]

end Reading

/-! ## One thread -/

/-- The ring of `fd`: its reader, its event, and how many records were handed out. -/
structure Thread.At (g : Geometry) (th : Thread) (fd : Fd) (rb : PerfRingBuffer)
    (ev : PerfEvent) (n : ℕ) : Prop where
  ring : th.ring_buffers_.lookup fd = some rb
  event : th.events fd = some ev
  reading : Reading g ev rb n

/-- The threads differ at most in what belongs to `fd`. -/
structure Thread.SameBut (fd : Fd) (th th' : Thread) : Prop where
  rings : ∀ x ≠ fd, th'.ring_buffers_.lookup x = th.ring_buffers_.lookup x
  events : ∀ x ≠ fd, th'.events x = th.events x
  event_data_ : th'.event_data_ = th.event_data_
  blocked : th'.blocked = th.blocked
  pending : th'.pending = th.pending
  handler : th'.handler = th.handler

namespace Thread

variable {g : Geometry} {th th' th'' : Thread} {fd : Fd} {rb rb' : PerfRingBuffer}
variable {ev : PerfEvent} {m : PerfMmap} {n : ℕ}

theorem SameBut.refl (fd : Fd) (th : Thread) : th.SameBut fd th :=
  ⟨fun _ _ => rfl, fun _ _ => rfl, rfl, rfl, rfl, rfl⟩

theorem SameBut.trans (h : th.SameBut fd th') (h' : th'.SameBut fd th'') :
    th.SameBut fd th'' where
  rings x hx := (h'.rings x hx).trans (h.rings x hx)
  events x hx := (h'.events x hx).trans (h.events x hx)
  event_data_ := h'.event_data_.trans h.event_data_
  blocked := h'.blocked.trans h.blocked
  pending := h'.pending.trans h.pending
  handler := h'.handler.trans h.handler

theorem sameBut_modify (th : Thread) (fd : Fd) (f : PerfEvent → PerfEvent) :
    th.SameBut fd (th.modify fd f) :=
  ⟨fun _ _ => rfl, fun _ hx => events_modify_ne th fd f hx, rfl, rfl, rfl, rfl⟩

theorem sameBut_afterRead (th : Thread) (fd : Fd) (rb : PerfRingBuffer) (m : PerfMmap) :
    th.SameBut fd (th.afterRead fd rb m) :=
  ⟨fun _ hx => AList.lookup_insert_ne hx, fun _ hx => events_modify_ne th fd _ hx,
    rfl, rfl, rfl, rfl⟩

theorem SameBut.at (h : th.SameBut fd th') {x : Fd} (hx : x ≠ fd)
    (hat : th.At g x rb ev n) : th'.At g x rb ev n :=
  ⟨(h.rings x hx).trans hat.ring, (h.events x hx).trans hat.event, hat.reading⟩

theorem At.modify (h : th.At g fd rb ev n) (f : PerfEvent → PerfEvent)
    (hf : Reading g (f ev) rb n) : (th.modify fd f).At g fd rb (f ev) n :=
  ⟨h.ring, events_modify_of_eq f h.event, hf⟩

theorem At.afterRead (h : th.At g fd rb ev n) {k : ℕ}
    (hread : Reading g { ev with mmap := some m } rb' k) :
    (th.afterRead fd rb' m).At g fd rb' { ev with mmap := some m } k := by
  exact ⟨AList.lookup_insert _, events_modify_of_eq _ h.event, hread⟩

end Thread

/-! ### What is appended -/

section Entries

variable {T : TraceEvents}

/-- `event_data_->append`, several times. -/
def Heap.extend (h : Heap T) (event_data_ : Option BufferPtr) (xs : List (Entry T)) :
    Heap T :=
  xs.foldl (fun h x => h.append event_data_ x) h

theorem Heap.extend_append (h : Heap T) (event_data_ : Option BufferPtr)
    (xs ys : List (Entry T)) :
    h.extend event_data_ (xs ++ ys) = (h.extend event_data_ xs).extend event_data_ ys :=
  List.foldl_append

theorem Heap.extend_none (h : Heap T) (xs : List (Entry T)) : h.extend none xs = h := by
  induction xs with
  | nil => rfl
  | cons x xs ih => exact ih

theorem Heap.extend_some (h : Heap T) (p : BufferPtr) (xs : List (Entry T)) :
    h.extend (some p) xs = Function.update h p (h p ++ xs) := by
  induction xs generalizing h with
  | nil => simp [extend]
  | cons x xs ih =>
      have hcons : h.extend (some p) (x :: xs) = (h.append (some p) x).extend (some p) xs :=
        rfl
      rw [hcons, ih]
      simp [Heap.append]

variable (T) in
/-- The event of a record, if there is one. -/
def Record.entries (now : UInt64) (fd : Fd) (r : Record) : List (Entry T) :=
  ((r.access T).map fun a => ⟨fd, a.at now⟩).toList

variable (T) in
/-- The events of consecutive records, the first of them read in round `i`. -/
def entries (clock : ℕ → UInt64) (fd : Fd) : ℕ → List Record → List (Entry T)
  | _, [] => []
  | i, r :: rs => r.entries T (clock i) fd ++ entries clock fd (i + 1) rs

/-- What the entries of one descriptor say, apart from the time. -/
def accesses (fd : Fd) (xs : List (Entry T)) : List (Access T) :=
  (xs.filter fun x => x.fd = fd).map fun x => x.event.toAccess

theorem accesses_append (fd : Fd) (xs ys : List (Entry T)) :
    accesses fd (xs ++ ys) = accesses fd xs ++ accesses fd ys := by
  simp [accesses]

/-- Entries of another descriptor say nothing about this one. -/
theorem accesses_of_forall_ne {fd : Fd} {xs : List (Entry T)} (h : ∀ x ∈ xs, x.fd ≠ fd) :
    accesses fd xs = [] := by
  have hfilter : xs.filter (fun x => x.fd = fd) = [] := by
    rw [List.filter_eq_nil_iff]
    intro x hx
    simp [h x hx]
  rw [accesses, hfilter]
  rfl

theorem accesses_of_forall_eq {fd : Fd} {xs : List (Entry T)} (h : ∀ x ∈ xs, x.fd = fd) :
    accesses fd xs = xs.map fun x => x.event.toAccess := by
  have hfilter : xs.filter (fun x => x.fd = fd) = xs := by
    rw [List.filter_eq_self]
    intro x hx
    simp [h x hx]
  rw [accesses, hfilter]

theorem fd_of_mem_entries {clock : ℕ → UInt64} {fd : Fd} {rs : List Record} {i : ℕ}
    {x : Entry T} (h : x ∈ entries T clock fd i rs) : x.fd = fd := by
  induction rs generalizing i with
  | nil => cases h
  | cons r rs ih =>
      rcases List.mem_append.mp h with h | h
      · simp only [Record.entries, Option.mem_toList, Option.map_eq_some_iff] at h
        obtain ⟨a, -, rfl⟩ := h
        rfl
      · exact ih h

/-- **The entries of records are their accesses, in order.** -/
theorem accesses_entries (clock : ℕ → UInt64) (fd : Fd) (i : ℕ) (rs : List Record) :
    accesses fd (entries T clock fd i rs) = rs.filterMap (Record.access T) := by
  induction rs generalizing i with
  | nil => rfl
  | cons r rs ih =>
      rw [entries, accesses_append, ih, List.filterMap_cons]
      cases h : r.access T with
      | none => simp [Record.entries, h, accesses]
      | some a => simp [Record.entries, h, accesses]

end Entries

/-! ### The loop -/

section Loop

variable {T : TraceEvents} {g : Geometry} {s : Sampler T} {fd : Fd} {rb : PerfRingBuffer}
variable {ev : PerfEvent} {n : ℕ}

theorem Thread.At.mmapOf {th : Thread} (h : th.At g fd rb ev n) :
    ∃ m, th.mmapOf fd = some m ∧ ev.mmap = some m := by
  obtain ⟨m, -, -, hm, -⟩ := h.reading.holds
  exact ⟨m, by rw [Thread.mmapOf, h.event, Option.bind_some, hm], hm⟩

/-- **A round that finds a record.** -/
theorem processNext_behind (now : UInt64) (h : s.thread.At g fd rb ev n)
    (hlt : n < ev.accepted.length) :
    ∃ th' rb' m', s.processNext g now fd = some (true, ⟨th', s.heap.extend
        s.thread.event_data_ ((ev.accepted[n]).entries T now fd)⟩) ∧
      th'.At g fd rb' { ev with mmap := some m' } (n + 1) ∧ s.thread.SameBut fd th' := by
  obtain ⟨m, hmmap, hm⟩ := h.mmapOf
  obtain ⟨res, ptr, hread, hptr, hbytes, hrest⟩ := h.reading.read_behind hm hlt
  have hlaid := h.reading.laidOut _ (List.getElem_mem hlt)
  refine ⟨s.thread.afterRead fd res.buffer res.mmap, res.buffer, res.mmap, ?_,
    h.afterRead hrest, s.thread.sameBut_afterRead fd _ _⟩
  rw [Sampler.processNext, h.ring, Option.bind_some, hmmap, Option.bind_some, hread]
  simp only [Option.bind_some, hptr, accessAt_eq now hbytes hlaid, Record.entries]
  cases (ev.accepted[n]).access T with
  | none => rfl
  | some a => rfl

/-- **The round that finds none.** -/
theorem processNext_caught (now : UInt64) (h : s.thread.At g fd rb ev ev.accepted.length) :
    ∃ th' m', s.processNext g now fd = some (false, ⟨th', s.heap⟩) ∧
      th'.At g fd rb { ev with mmap := some m' } ev.accepted.length ∧
      s.thread.SameBut fd th' ∧ m'.data_tail = rb.prev_ ∧ m'.data_head = rb.prev_ := by
  obtain ⟨m, hmmap, hm⟩ := h.mmapOf
  obtain ⟨m', hread, hrest, htail, hhead⟩ := h.reading.read_caught hm
  refine ⟨s.thread.afterRead fd rb m', m', ?_, h.afterRead hrest,
    s.thread.sameBut_afterRead fd _ _, htail, hhead⟩
  rw [Sampler.processNext, h.ring, Option.bind_some, hmmap, Option.bind_some, hread]
  rfl

/-- The loop, with `k` records left to read. -/
theorem process_events_eq (clock : ℕ → UInt64) {k : ℕ} :
    ∀ {s : Sampler T} {rb : PerfRingBuffer} {ev : PerfEvent} {n fuel i : ℕ},
      s.thread.At g fd rb ev n → n + k = ev.accepted.length → k < fuel →
      ∃ th' rb' m', s.process_events g clock fd fuel i = some (i + k + 1, ⟨th',
          s.heap.extend s.thread.event_data_
            (entries T clock fd i (ev.accepted.drop n))⟩) ∧
        th'.At g fd rb' { ev with mmap := some m' } ev.accepted.length ∧
        s.thread.SameBut fd th' ∧ m'.data_tail = rb'.prev_ ∧
        m'.data_head = rb'.prev_ := by
  induction k with
  | zero =>
      intro s rb ev n fuel i h hlen hfuel
      obtain ⟨fuel, rfl⟩ : ∃ f, fuel = f + 1 := ⟨fuel - 1, by omega⟩
      rw [Nat.add_zero] at hlen
      subst hlen
      obtain ⟨th', m', hnext, hat, hsame, htail, hhead⟩ := processNext_caught (clock i) h
      refine ⟨th', rb, m', ?_, hat, hsame, htail, hhead⟩
      rw [Sampler.process_events, hnext, List.drop_length]
      rfl
  | succ k ih =>
      intro s rb ev n fuel i h hlen hfuel
      obtain ⟨fuel, rfl⟩ : ∃ f, fuel = f + 1 := ⟨fuel - 1, by omega⟩
      have hlt : n < ev.accepted.length := by omega
      obtain ⟨th₁, rb₁, m₁, hnext, hat₁, hsame₁⟩ := processNext_behind (clock i) h hlt
      obtain ⟨th', rb', m', hloop, hat, hsame, htail, hhead⟩ :=
        ih (s := ⟨th₁, _⟩) (i := i + 1) hat₁ (by simp only; omega)
          (Nat.lt_of_succ_lt_succ hfuel)
      refine ⟨th', rb', m', ?_, hat, hsame₁.trans hsame, htail, hhead⟩
      rw [Sampler.process_events, hnext]
      simp only [Option.bind_some, if_true]
      rw [hloop, hsame₁.event_data_, ← Heap.extend_append,
        List.drop_eq_getElem_cons hlt, entries]
      congr 2
      omega

/-- **`signal_handler`.**  It makes one call of `read` for every unread record and one
more, appends the entries of those records in order, and leaves its ring drained and
its event enabled; nothing else changes. -/
theorem signal_handler_eq (clock : ℕ → UInt64) {fuel : ℕ} (h : s.thread.At g fd rb ev n)
    (hfuel : ev.accepted.length - n < fuel) :
    ∃ th' rb' m', s.signal_handler g clock fuel fd = some (ev.accepted.length - n + 1,
        ⟨th', s.heap.extend s.thread.event_data_
          (entries T clock fd 0 (ev.accepted.drop n))⟩) ∧
      th'.At g fd rb' { ev with mmap := some m', enabled := true } ev.accepted.length ∧
      s.thread.SameBut fd th' ∧ m'.data_tail = rb'.prev_ ∧ m'.data_head = rb'.prev_ := by
  have hmem : fd ∈ (s.thread.disable_fd fd).ring_buffers_ := by
    rw [← AList.lookup_isSome]
    exact Option.isSome_of_eq_some h.ring
  have hdisabled : (s.thread.disable_fd fd).At g fd rb { ev with enabled := false } n :=
    h.modify _ (h.reading.congr rfl rfl)
  obtain ⟨th₁, rb', m', hloop, hat, hsame, htail, hhead⟩ :=
    process_events_eq (s := ⟨s.thread.disable_fd fd, s.heap⟩) (i := 0) clock hdisabled
      (Nat.add_sub_cancel' h.reading.le) hfuel
  refine ⟨th₁.enable_fd fd, rb', m', ?_, hat.modify _ (hat.reading.congr rfl rfl),
    ((s.thread.sameBut_modify fd _).trans hsame).trans (th₁.sameBut_modify fd _),
    htail, hhead⟩
  simp only [Sampler.signal_handler, if_pos hmem, hloop, Option.map_some, Nat.zero_add]
  rfl

end Loop

end AccessSampling
