import AccessSampling.SharedRing
import AccessSampling.Foundation.Simulation

/-!
# The ring, access by access, refines the ring protocol

In `ringMachine` an appended record is one step, and all that `read` does after `read_head` is
another one.  In `sharedMachine` these are many, and the other side takes steps in between.
Nobody can tell the difference: whatever the two sides do access by access, there is a run of
`ringMachine` with the same records in the same order that comes to the same counters, and its
caller finds the same bytes.

A publishing step is matched by the whole `append`, the access that loads the head by `load`,
and the access with which `read` returns by `finish`.  The stores of the kernel, the copies
and the loads of the caller are matched by no step.

* `SharedRing.Access` — what the next access of `read` does.
* `SharedRing.Refines` — the two states agree.
* `sharedSimulation` — each access is a step of the protocol, or none.
* `read_atomic` — the result.

### Why the orders agree

The protocol appends a record when the kernel *publishes* it, and not when it stores its
first byte: until then the head is where it was, and `read` cannot tell.  The head is loaded
in both at the same time, and the rest of `read` happens with its last access: what the
kernel publishes in between lies behind the head that was loaded, and what it stores lies
outside the records that are in the ring.

The two states are not compared byte by byte.  Each has its own invariant, and the counters
and what is behind a pointer follow from these two.  Both need the records that reach or
cross the end of the data area to fit `event_copy_` (`PublishFits`): where one does not,
`PAGE_SIZE` is overwritten, and nothing is said of either side.
-/

namespace AccessSampling

open Foundation

/-! ### What an access does -/

/-- The accesses of `read`. -/
inductive SharedRing.Access (s : SharedRing) : SharedRing → Prop where
  | head {event : Option EventPtr} (hs : s.reader = .returned event) :
      Access s { s with reader := .loaded (PerfRingBuffer.read_head s.mmap) }
  | tail (hs : s.reader = .loaded s.buffer.prev_) :
      Access s { s with
        mmap := PerfRingBuffer.write_tail s.mmap s.buffer.prev_, reader := .returned none }
  | wraps {head : UInt64} {data : ℕ} {size : UInt64} {copies : List Memcpy}
      (hs : s.reader = .loaded head) (hne : s.buffer.prev_ ≠ head) :
      Access s { s with reader := .copying data size copies }
  | ring {head : UInt64} {size : UInt64} {ptr : EventPtr} (hs : s.reader = .loaded head)
      (hne : s.buffer.prev_ ≠ head) : Access s (s.handOut size ptr)
  | copy {data : ℕ} {size : UInt64} {c : Memcpy} {copies : List Memcpy} {bs : List UInt8}
      (hs : s.reader = .copying data size (c :: copies)) :
      Access s { s with
        buffer := s.buffer.store c.dst bs, reader := .copying data size copies }
  | last {data : ℕ} {size : UInt64} (hs : s.reader = .copying data size []) :
      Access s (s.handOut size .copy)

theorem SharedRing.access_of_read {g : Geometry} {s s' : SharedRing}
    (h : s.read g = some s') : s.Access s' := by
  cases hs : s.reader with
  | returned event =>
      simp only [SharedRing.read, hs, Option.some.injEq] at h
      exact h ▸ .head hs
  | loaded head =>
      by_cases hne : s.buffer.prev_ ≠ head
      · simp only [SharedRing.read, hs, if_pos hne] at h
        obtain ⟨sizeBytes, -, h⟩ := Option.bind_eq_some_iff.mp h
        split at h
        case isTrue =>
          obtain ⟨copies, -, rfl⟩ := Option.map_eq_some_iff.mp h
          exact .wraps hs hne
        case isFalse =>
          cases h
          exact .ring hs hne
      · rw [not_not] at hne
        simp only [SharedRing.read, hs, hne, ne_eq, not_true, if_false, Option.some.injEq] at h
        subst h hne
        exact .tail hs
  | copying data size copies =>
      cases copies with
      | nil =>
          simp only [SharedRing.read, hs, Option.some.injEq] at h
          exact h ▸ .last hs
      | cons c copies =>
          simp only [SharedRing.read, hs] at h
          obtain ⟨bs, -, rfl⟩ := Option.map_eq_some_iff.mp h
          exact .copy hs

/-! ### The relation -/

/-- The records that the kernel has published, in order. -/
def published (es : List SharedEvent) : List Record :=
  es.filterMap fun
    | .publish r => some r
    | _ => none

/-- The records that the kernel has appended, in order. -/
def produced (fs : List RingEvent) : List Record :=
  fs.filterMap fun
    | .produce r => some r
    | _ => none

/-- The call of `read` is as far in the protocol as it is here, `n` records having been
returned. -/
def Reader.Agrees (n : ℕ) (a : Ring) : Reader → Prop
  | .returned _ => a.loaded = none
  | .loaded head => a.loaded = some head
  | .copying _ _ _ => a.loaded ≠ none ∧ n < a.seen

/-- **The two states agree**, after the events `es` and `fs`. -/
structure SharedRing.Refines (g : Geometry) (data : ℕ → UInt8) (es : List SharedEvent)
    (s : SharedRing) (fs : List RingEvent) (a : Ring) : Prop where
  fits : (ringMachine g).Along (EndRecordsFit g) (Ring.init g data) fs
  order : produced fs = published es
  accepted : a.accepted = s.accepted
  tail : a.mmap.data_tail = s.mmap.data_tail
  shared : ∃ m, s.Inv g m
  ring : ∃ m, a.Inv g m s.count
  reader : s.reader.Agrees s.count a

namespace SharedRing.Refines

variable {g : Geometry} {data : ℕ → UInt8} {es : List SharedEvent} {s s' : SharedRing}
variable {fs : List RingEvent} {a a' : Ring}

theorem init (g : Geometry) (data : ℕ → UInt8) :
    SharedRing.Refines g data [] (SharedRing.init g data) [] (Ring.init g data) where
  fits := trivial
  order := rfl
  accepted := rfl
  tail := rfl
  shared := ⟨0, .init g data⟩
  ring := ⟨0, .init g data⟩
  reader := rfl

theorem head_eq (h : s.Refines g data es fs a) : a.mmap.data_head = s.mmap.data_head := by
  obtain ⟨m, hshared⟩ := h.shared
  obtain ⟨m', hring⟩ := h.ring
  rw [hring.holds.head_eq, Ring.Inv.streamSize_take_add_drop, h.accepted, hshared.head_eq]

theorem prev_eq (h : s.Refines g data es fs a) : a.buffer.prev_ = s.buffer.prev_ := by
  obtain ⟨m, hshared⟩ := h.shared
  obtain ⟨m', hring⟩ := h.ring
  rw [hring.holds.prev_eq, hshared.prev_eq, h.accepted]
  rfl

/-- The head that a call of `read` has loaded is `prev_` exactly when the call has seen no more
than has been returned. -/
theorem prev_eq_iff (h : s.Refines g data es fs a) {head : UInt64} (hl : a.loaded = some head) :
    s.buffer.prev_ = head ↔ a.seen = s.count := by
  obtain ⟨m, hshared⟩ := h.shared
  obtain ⟨m', hring⟩ := h.ring
  obtain ⟨hle, hseen, rfl⟩ := hring.loaded head hl
  rw [h.accepted] at hseen ⊢
  exact hshared.prev_eq_iff hle hseen

/-- The caller finds the same bytes. -/
theorem recordAt_eq (h : s.Refines g data es fs a) {ptr : EventPtr}
    (hs : s.reader = .returned (some ptr)) :
    recordAt (ptr.load g s.mmap s.buffer) = a.returned.getLast? := by
  obtain ⟨m, hshared⟩ := h.shared
  obtain ⟨m', hring⟩ := h.ring
  obtain ⟨k, r, hcount, hr, hload⟩ := hshared.behind hs
  rw [AccessSampling.recordAt_eq hload, hring.returned_eq, h.accepted, hcount, List.take_add_one,
    hr, List.map_append]
  exact List.getLast?_concat.symm

/-! ### The steps -/

/-- A step that the protocol does not take. -/
theorem skip (h : s.Refines g data es fs a) {e : SharedEvent} (hnone : published [e] = [])
    (hshared : ∃ m, s'.Inv g m) (haccepted : s'.accepted = s.accepted)
    (hcount : s'.count = s.count) (htail : s'.mmap.data_tail = s.mmap.data_tail)
    (hreader : s'.reader.Agrees s'.count a) :
    ∃ gs a', (ringMachine g).exec a gs = some a' ∧
      s'.Refines g data (es ++ [e]) (fs ++ gs) a' := by
  refine ⟨[], a, rfl, ?_, ?_, h.accepted.trans haccepted.symm, h.tail.trans htail.symm, hshared,
    hcount ▸ h.ring, hreader⟩
  · rw [List.append_nil]
    exact h.fits
  · rw [published, List.filterMap_append, ← published, ← published, hnone, List.append_nil,
      List.append_nil, h.order]

/-- A step that is one of the protocol. -/
theorem take (h : s.Refines g data es fs a)
    (hrun : (ringMachine g).exec (Ring.init g data) fs = some a) {e : SharedEvent}
    {f : RingEvent} (hnext : (ringMachine g).next a f = some a') (hfit : EndRecordsFit g a f)
    (hsame : produced [f] = published [e]) (hshared : ∃ m, s'.Inv g m)
    (haccepted : a'.accepted = s'.accepted) (htail : a'.mmap.data_tail = s'.mmap.data_tail)
    (hring : ∃ m, a'.Inv g m s'.count) (hreader : s'.reader.Agrees s'.count a') :
    ∃ gs a', (ringMachine g).exec a gs = some a' ∧
      s'.Refines g data (es ++ [e]) (fs ++ gs) a' := by
  refine ⟨[f], a', ((ringMachine g).exec_singleton a f).trans hnext, ?_, ?_, haccepted, htail,
    hshared, hring, hreader⟩
  · refine (Machine.along_append _).mpr ⟨h.fits, fun a₁ ha₁ => ?_⟩
    cases hrun.symm.trans ha₁
    exact ⟨hfit, fun _ _ => trivial⟩
  · rw [produced, published, List.filterMap_append, List.filterMap_append]
    exact congrArg₂ _ h.order hsame

/-- Publishing a record appends it. -/
theorem publish (h : s.Refines g data es fs a)
    (hrun : (ringMachine g).exec (Ring.init g data) fs = some a) {r : Record}
    (hfit : EndFits g s.mmap.data_head.toNat r) (hnext : s.publish g r = some s') :
    ∃ gs a', (ringMachine g).exec a gs = some a' ∧
      s'.Refines g data (es ++ [.publish r]) (fs ++ gs) a' := by
  obtain ⟨m, hshared⟩ := h.shared
  obtain ⟨m', hring⟩ := h.ring
  have hshared' := hshared.publish hfit hnext
  simp only [SharedRing.publish, Option.ite_none_right_eq_some, Option.some.injEq] at hnext
  obtain ⟨⟨hroom, -⟩, rfl⟩ := hnext
  rw [PerfMmap.free, ← h.head_eq, ← h.tail] at hroom
  have hfits : EndRecordsFit g a (.produce r) := by
    intro _
    rw [h.head_eq]
    exact hfit
  obtain ⟨mm, happ⟩ : ∃ mm, a.mmap.append g r = some mm := ⟨_, if_pos hroom⟩
  have htail : mm.data_tail = a.mmap.data_tail := by
    rw [PerfMmap.append, if_pos hroom] at happ
    cases happ
    rfl
  have hstep : (ringMachine g).next a (.produce r)
      = some { a with mmap := mm, accepted := a.accepted ++ [r] } := by
    simp only [ringMachine, happ]
  exact h.take hrun hstep hfits rfl ⟨m, hshared'⟩ (congrArg (· ++ [r]) h.accepted)
    (htail.trans h.tail) ⟨m', hring.produce hfits hstep⟩ h.reader

/-- `read` returns with a record. -/
theorem handOut (h : s.Refines g data es fs a)
    (hrun : (ringMachine g).exec (Ring.init g data) fs = some a) {head : UInt64}
    (hl : a.loaded = some head) (hlt : s.count < a.seen) {size : UInt64} {ptr : EventPtr}
    (hshared : ∃ m, (s.handOut size ptr).Inv g m) :
    ∃ gs a', (ringMachine g).exec a gs = some a' ∧
      (s.handOut size ptr).Refines g data (es ++ [.read]) (fs ++ gs) a' := by
  obtain ⟨m, hring⟩ := h.ring
  obtain ⟨a', hstep, haccepted, hidle, hring'⟩ := hring.finish_behind hl hlt
  refine h.take hrun hstep trivial rfl hshared (haccepted.trans h.accepted) ?_ ⟨m, hring'⟩ hidle
  show a'.mmap.data_tail = s.mmap.data_tail
  rw [← h.tail, hring'.holds.tail_eq, hring.holds.tail_eq, haccepted]

/-- **An access of `read`** is the `load` of the protocol, its `finish`, or nothing. -/
theorem read (h : s.Refines g data es fs a)
    (hrun : (ringMachine g).exec (Ring.init g data) fs = some a) (hnext : s.read g = some s') :
    ∃ gs a', (ringMachine g).exec a gs = some a' ∧
      s'.Refines g data (es ++ [.read]) (fs ++ gs) a' := by
  obtain ⟨m, hring⟩ := h.ring
  have hshared : ∃ m, s'.Inv g m := by
    obtain ⟨k, hinv⟩ := h.shared
    obtain ⟨s₁, m', hread, hinv'⟩ := hinv.read
    cases hread.symm.trans hnext
    exact ⟨m', hinv'⟩
  have hreader := h.reader
  have hbehind : ∀ {head : UInt64}, a.loaded = some head → s.buffer.prev_ ≠ head →
      s.count < a.seen := by
    intro head hl hne
    exact (hring.loaded head hl).1.lt_of_ne' (mt (h.prev_eq_iff hl).mpr hne)
  cases SharedRing.access_of_read hnext with
  | head hs =>
      rw [hs] at hreader
      obtain ⟨a', hstep, haccepted, -, hloaded⟩ := Ring.Inv.load_idle (g := g) hreader
      have hring' := hring.load hstep
      refine h.take hrun hstep trivial rfl hshared (haccepted.trans h.accepted) ?_
        ⟨m, hring'⟩ ?_
      · show a'.mmap.data_tail = s.mmap.data_tail
        rw [← h.tail, hring'.holds.tail_eq, hring.holds.tail_eq, haccepted]
      · exact hloaded.trans (congrArg some h.head_eq)
  | tail hs =>
      rw [hs] at hreader
      have hcaught := (h.prev_eq_iff hreader).mp rfl
      obtain ⟨a', hstep, haccepted, hidle, hring'⟩ := hring.finish_caught hreader hcaught
      refine h.take hrun hstep trivial rfl hshared (haccepted.trans h.accepted) ?_
        ⟨_, hring'⟩ hidle
      show a'.mmap.data_tail = s.buffer.prev_
      rw [← h.prev_eq, hring'.holds.tail_eq, hring.holds.prev_eq, haccepted]
  | wraps hs hne =>
      rw [hs] at hreader
      have hsome : a.loaded ≠ none := by
        rw [hreader]
        exact Option.some_ne_none _
      exact h.skip rfl hshared rfl rfl rfl ⟨hsome, hbehind hreader hne⟩
  | ring hs hne =>
      rw [hs] at hreader
      exact h.handOut hrun hreader (hbehind hreader hne) hshared
  | copy hs =>
      rw [hs] at hreader
      exact h.skip rfl hshared rfl rfl rfl hreader
  | last hs =>
      rw [hs] at hreader
      obtain ⟨head, hl⟩ := Option.ne_none_iff_exists'.mp hreader.1
      exact h.handOut hrun hl hreader.2 hshared

/-- **Each access is a step of the protocol, or none.** -/
theorem step (h : s.Refines g data es fs a)
    (hrun : (ringMachine g).exec (Ring.init g data) fs = some a) {e : SharedEvent}
    (hfit : PublishFits g s e) (hnext : (sharedMachine g).next s e = some s') :
    ∃ gs a', (ringMachine g).exec a gs = some a' ∧
      s'.Refines g data (es ++ [e]) (fs ++ gs) a' := by
  obtain ⟨m, hshared⟩ := h.shared
  have hshared' := hshared.step hfit hnext
  cases e with
  | store i b =>
      have hstore : s.store g i b = some s' := hnext
      simp only [SharedRing.store, Option.ite_none_right_eq_some, Option.some.injEq] at hstore
      obtain ⟨-, rfl⟩ := hstore
      exact h.skip rfl hshared' rfl rfl rfl h.reader
  | publish r => exact h.publish hrun hfit hnext
  | read => exact h.read hrun hnext
  | load off =>
      have hload : s.load g off = some s' := hnext
      unfold SharedRing.load at hload
      split at hload
      case h_1 =>
        obtain ⟨b, -, rfl⟩ := Option.map_eq_some_iff.mp hload
        exact h.skip rfl hshared' rfl rfl rfl h.reader
      case h_2 => cases hload

end SharedRing.Refines

def sharedSimulation (g : Geometry) (data : ℕ → UInt8) :
    Simulation (sharedMachine g) (ringMachine g) (SharedRing.init g data) (Ring.init g data)
      ((sharedMachine g).Along (PublishFits g) (SharedRing.init g data)) where
  rel := SharedRing.Refines g data
  init := .init g data
  step hrun hring hrel hfit hnext :=
    hrel.step hring (((Machine.along_append _).mp hfit).2 _ hrun).1 hnext

/-- **Reading is atomic.**  Take the accesses of the kernel, of `read` and of its caller one by
one, in any order, where a record that reaches or crosses the end of the data area fits
`event_copy_` (`PublishFits`).  There is a run of the ring protocol, where a record is appended
in one step and `read` goes from its head to its return in another, in which the kernel produces
the same records in the same order, and which comes to the same head, tail and `prev_`.  The
pointer that `read` has returned leads to the record that the protocol has returned last, and
every byte that the caller has ever loaded is a byte of what the protocol has returned. -/
theorem read_atomic (g : Geometry) (data : ℕ → UInt8) {es : List SharedEvent} {s : SharedRing}
    (hfit : (sharedMachine g).Along (PublishFits g) (SharedRing.init g data) es)
    (hrun : (sharedMachine g).exec (SharedRing.init g data) es = some s) :
    ∃ fs a, (ringMachine g).exec (Ring.init g data) fs = some a ∧
      (ringMachine g).Along (EndRecordsFit g) (Ring.init g data) fs ∧
      produced fs = published es ∧ a.accepted = s.accepted ∧ a.returned.length = s.count ∧
      a.mmap.data_head = s.mmap.data_head ∧ a.mmap.data_tail = s.mmap.data_tail ∧
      a.buffer.prev_ = s.buffer.prev_ ∧
      (∀ ptr, s.reader = .returned (some ptr) →
        a.loaded = none ∧ recordAt (ptr.load g s.mmap s.buffer) = a.returned.getLast?) ∧
      ∀ x ∈ s.loads, ∃ bs, a.returned[x.record]? = some bs ∧
        (x.off < bs.length → bs[x.off]? = some x.byte) := by
  obtain ⟨fs, a, hexec, h⟩ := (sharedSimulation g data).exec
    (fun _ _ hfit => ((Machine.along_append _).mp hfit).1) hfit hrun
  obtain ⟨m, hshared⟩ := h.shared
  obtain ⟨m', hring⟩ := h.ring
  have hreturned := hring.returned_eq
  rw [h.accepted] at hreturned
  refine ⟨fs, a, hexec, h.fits, h.order, h.accepted, ?_, h.head_eq, h.tail, h.prev_eq,
    fun ptr hs => ⟨?_, h.recordAt_eq hs⟩, fun x hx => ?_⟩
  · rw [hreturned, List.length_map, List.length_take, Nat.min_eq_left hshared.count_le]
  · have hreader := h.reader
    rw [hs] at hreader
    exact hreader
  · obtain ⟨r, hr, hlt, hbyte⟩ := hshared.loads x hx
    refine ⟨r.bytes, ?_, hbyte⟩
    rw [hreturned, List.getElem?_map, List.getElem?_take_of_lt hlt, hr]
    rfl

set_option maxRecDepth 10000 in
/-- The kernel is in the middle of a sample when `read` loads the head, and publishes it before
`read` has returned with the sample before. -/
theorem read_atomic_meanwhile :
    let e₁ : SamplingEvent := ⟨0, 0x401000, 0x7ffe0010, 0x2⟩
    let e₂ : SamplingEvent := ⟨0, 0x401004, 0x7ffe0018, 0x4⟩
    let stores := storesFrom 0 e₂.bytes
    let es : List SharedEvent := storesFrom 0 e₁.bytes ++ .publish e₁.record :: stores.take 20
      ++ .read :: stores.drop 20 ++ [.publish e₂.record, .read, .load 16]
    ∃ fs a, (ringMachine .x86).exec (Ring.init .x86 fun _ => 0) fs = some a ∧
      produced fs = published es ∧ a.returned.length = 1 := by
  intro e₁ e₂ stores es
  have hpublished : ∀ r, .publish r ∈ es → r = e₁.record ∨ r = e₂.record := by
    intro r hr
    have htake : .publish r ∉ stores.take 20 :=
      fun hmem => publish_not_mem_stores 0 (List.mem_of_mem_take hmem)
    have hdrop : .publish r ∉ stores.drop 20 :=
      fun hmem => publish_not_mem_stores 0 (List.mem_of_mem_drop hmem)
    simpa [es, publish_not_mem_stores, htake, hdrop] using hr
  have hfit : (sharedMachine .x86).Along (PublishFits .x86) (SharedRing.init .x86 fun _ => 0)
      es := by
    refine along_publishFits fun r hr => ?_
    rcases hpublished r hr with rfl | rfl
    · exact e₁.size_record_le
    · exact e₂.size_record_le
  have hlast : ((sharedMachine .x86).exec (SharedRing.init .x86 fun _ => 0) es).map
      (fun s => s.count) = some 1 := by decide +kernel
  obtain ⟨s, hrun, hcount⟩ := Option.map_eq_some_iff.mp hlast
  obtain ⟨fs, a, hexec, -, horder, -, hlength, -⟩ := read_atomic .x86 _ hfit hrun
  exact ⟨fs, a, hexec, horder, hlength.trans hcount⟩

end AccessSampling
