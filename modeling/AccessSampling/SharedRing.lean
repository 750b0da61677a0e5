import AccessSampling.EventCopy

/-!
# The ring, one access after another

In `RingProtocol` the kernel appends a record in one step, and what `read` does after
`read_head` is another.  Here the two sides take turns between any two accesses: the kernel
stores a record byte by byte and then advances `data_head`; `read` loads the head, then the
size of the record, then makes its copies, and returns; and its caller loads what is behind the
pointer, while the kernel goes on.  The `lfence` and the `mfence` keep the accesses in this
order.

A record that `read` has returned is not overwritten before `read` has been called again: the
tail is only written by a call that finds nothing.

**The kernel** may store any bytes into the part of the data area that is free, one at a
time, in any order and more than once, as nothing says how it copies a record; it publishes a
record when its bytes are there.  What is free goes by `data_tail`, so it never writes over
what `read` has yet to hand out.  **`read`** makes each `memcpy` in one access: the bytes it
copies lie below the head it has loaded, and nobody writes there meanwhile.

**`PublishFits`** is the condition, `EndFits` of each record that is published.  A record that
reaches or crosses the end of the data area may have `PERF_SAMPLE_MAX_SIZE` bytes at most;
a longer one makes `read` write past `event_copy_` (`overflow_at_end`).

* `sharedMachine` — the two sides.
* `exec_read` — without the kernel, the accesses of `read` are `readFrom`.
* `SharedRing.Inv` — what holds between any two accesses.
* `loads_of_returned` — what the caller loads are the bytes of the records, one after another.
-/

namespace AccessSampling

open Foundation

/-! ### The two sides -/

/-- The part of the data area that the kernel may store into. -/
def PerfMmap.free (g : Geometry) (m : PerfMmap) : UInt64 :=
  UInt64.ofNat g.capacity - (m.data_head - m.data_tail)

/-- Where the reader is. -/
inductive Reader where
  /-- `read` has returned, and its caller has the pointer. -/
  | returned (event : Option EventPtr)
  /-- `read_head` has returned. -/
  | loaded (head : UInt64)
  /-- In the loop, with the copies that are left. -/
  | copying (data : ℕ) (size : UInt64) (copies : List Memcpy)

/-- A byte that the caller of `read` has loaded: of which record, where, and what. -/
structure LoadedByte where
  record : ℕ
  off : ℕ
  byte : UInt8
  deriving DecidableEq

structure SharedRing where
  mmap : PerfMmap
  buffer : PerfRingBuffer
  reader : Reader
  /-- The records that the kernel has published. -/
  accepted : List Record
  /-- How many of them `read` has returned. -/
  count : ℕ
  /-- What its caller has loaded. -/
  loads : List LoadedByte

inductive SharedEvent where
  /-- The kernel stores a byte, at this distance behind the head. -/
  | store (i : ℕ) (b : UInt8)
  /-- The kernel advances the head over a record that it has stored. -/
  | publish (r : Record)
  /-- The next access of `read`. -/
  | read
  /-- The caller of `read` loads a byte behind the pointer. -/
  | load (off : ℕ)

namespace SharedRing

/-- A fresh mapping, and a fresh reader. -/
def init (g : Geometry) (data : ℕ → UInt8) : SharedRing where
  mmap := ⟨0, 0, data⟩
  buffer := PerfRingBuffer.new g
  reader := .returned none
  accepted := []
  count := 0
  loads := []

def store (g : Geometry) (i : ℕ) (b : UInt8) (s : SharedRing) : Option SharedRing :=
  if i < (s.mmap.free g).toNat then
    some { s with mmap := { s.mmap with
      data := put g.capacity s.mmap.data (s.mmap.data_head.toNat + i) [b] } }
  else none

def publish (g : Geometry) (r : Record) (s : SharedRing) : Option SharedRing :=
  if UInt64.ofNat r.size ≤ s.mmap.free g ∧
      window g.capacity s.mmap.data s.mmap.data_head.toNat r.size = r.bytes then
    some { s with
      mmap := { s.mmap with data_head := s.mmap.data_head + UInt64.ofNat r.size }
      accepted := s.accepted ++ [r] }
  else none

/-- `read` returns with a record. -/
def handOut (s : SharedRing) (size : UInt64) (ptr : EventPtr) : SharedRing :=
  { s with
    buffer := { s.buffer with prev_ := s.buffer.prev_ + size }
    reader := .returned (some ptr)
    count := s.count + 1 }

/-- The next access of `read`.  `none` is an access outside the data area. -/
def read (g : Geometry) (s : SharedRing) : Option SharedRing :=
  match s.reader with
  | .returned _ => some { s with reader := .loaded (PerfRingBuffer.read_head s.mmap) }
  | .loaded head =>
      let old := s.buffer.prev_
      let mask := s.buffer.mask_.toInt64.toUInt64
      let data := s.buffer.PAGE_SIZE.toNat
      if old ≠ head then
        let index := (old &&& mask).toNat
        (loadBytes (s.mmap.load g) (data + index + 6) 2).bind fun sizeBytes =>
          let size := UInt64.ofNat (leNat sizeBytes)
          if (old &&& mask) + size ≠ ((old + size) &&& mask) then
            (copyLoop s.buffer.mask_ (size.toNat + 1) old.toUInt32 size.toUInt32 0).map
              fun copies => { s with reader := .copying data size copies }
          else some (s.handOut size (.ring (data + index)))
      else some { s with mmap := PerfRingBuffer.write_tail s.mmap old, reader := .returned none }
  | .copying data size (c :: copies) =>
      (loadBytes (s.mmap.load g) (data + c.src) c.nbytes).map fun bs =>
        { s with buffer := s.buffer.store c.dst bs, reader := .copying data size copies }
  | .copying _ size [] => some (s.handOut size .copy)

/-- The caller of `read` uses the pointer. -/
def load (g : Geometry) (off : ℕ) (s : SharedRing) : Option SharedRing :=
  match s.reader with
  | .returned (some ptr) => (ptr.load g s.mmap s.buffer off).map fun b =>
      { s with loads := s.loads ++ [⟨s.count - 1, off, b⟩] }
  | _ => none

end SharedRing

def sharedMachine (g : Geometry) : Machine SharedRing SharedEvent where
  next s
    | .store i b => s.store g i b
    | .publish r => s.publish g r
    | .read => s.read g
    | .load off => s.load g off

/-! ### The accesses of `read` -/

section Assemble

variable {g : Geometry} {m : PerfMmap} {rb : PerfRingBuffer} {bs : List UInt8}
variable {cs : List Memcpy} {p n : ℕ}

/-- What copies of the bytes `bs` leave in the buffer. -/
def assemble (bs : List UInt8) (rb : PerfRingBuffer) (cs : List Memcpy) : PerfRingBuffer :=
  cs.foldl (fun rb c => rb.store c.dst ((bs.drop c.dst).take c.nbytes)) rb

theorem assemble_concat (c : Memcpy) :
    assemble bs rb (cs ++ [c]) = (assemble bs rb cs).store c.dst ((bs.drop c.dst).take c.nbytes) :=
  List.foldl_concat _ _ _ _

theorem runCopies_eq {load : ℕ → Option UInt8} {data : ℕ}
    (h : ∀ c ∈ cs, loadBytes load (data + c.src) c.nbytes
      = some ((bs.drop c.dst).take c.nbytes)) :
    runCopies load data rb cs = some (assemble bs rb cs) := by
  induction cs generalizing rb with
  | nil => rfl
  | cons c cs ih =>
      rw [runCopies, h c List.mem_cons_self, Option.bind_some,
        ih fun c' hc' => h c' (List.mem_cons_of_mem c hc')]
      rfl

/-- A copy takes its bytes from where they are, in one piece. -/
theorem copiesAt_spec (hreach : g.capacity ≤ p % g.capacity + n) (hn : n < 2 ^ 16) {c : Memcpy}
    (hc : c ∈ copiesAt g p n) :
    c.src = (p + c.dst) % g.capacity ∧ c.dst + c.nbytes ≤ n ∧ c.src + c.nbytes ≤ g.capacity := by
  have hbound := (copiesAt_bounds g hn).2 c hc
  have hmod := Nat.mod_lt p g.capacity_pos
  have hback := add_sub_mod_self p g.capacity_pos
  unfold copiesAt at hc
  split at hc
  case isTrue hend =>
    cases List.mem_singleton.mp hc
    exact ⟨rfl, by simp, hbound⟩
  case isFalse hend =>
    rw [List.mem_cons, List.mem_singleton] at hc
    rcases hc with rfl | rfl
    · refine ⟨rfl, ?_, hbound⟩
      show 0 + (g.capacity - p % g.capacity) ≤ n
      omega
    · refine ⟨hback.symm, ?_, hbound⟩
      show g.capacity - p % g.capacity + (n - (g.capacity - p % g.capacity)) ≤ n
      omega

/-- The copies of a record are copies of its bytes. -/
theorem loadBytes_copiesAt (hmem : window g.capacity m.data p n = bs)
    (hreach : g.capacity ≤ p % g.capacity + n) (hn : n < 2 ^ 16) {c : Memcpy}
    (hc : c ∈ copiesAt g p n) :
    loadBytes (m.load g) (g.page + c.src) c.nbytes = some ((bs.drop c.dst).take c.nbytes) := by
  obtain ⟨hsrc, hin, hend⟩ := copiesAt_spec hreach hn hc
  rw [loadBytes_window hend, ← hmem, window_slice hin, hsrc, window_mod]

/-- A copy that stays inside `event_copy_` leaves the other members alone. -/
theorem attached_store (bs : List UInt8) (hA : rb.Attached g) {dst k : ℕ}
    (hin : dst + k ≤ PERF_SAMPLE_MAX_SIZE) :
    (rb.store dst ((bs.drop dst).take k)).Attached g := by
  refine ⟨hA.mask_eq, (rb.store_page ?_).trans hA.page_eq⟩
  rw [List.length_take]
  omega

end Assemble

section Alone

variable {g : Geometry} {s : SharedRing}

/-- The rest of the loop, without the kernel. -/
theorem exec_copying {data : ℕ} {size : UInt64} {copies : List Memcpy} {rb : PerfRingBuffer}
    (hs : s.reader = .copying data size copies)
    (h : runCopies (s.mmap.load g) data s.buffer copies = some rb) :
    (sharedMachine g).exec s (List.replicate (copies.length + 1) .read)
      = some (SharedRing.handOut { s with buffer := rb } size .copy) := by
  induction copies generalizing s with
  | nil =>
      cases h
      refine (Machine.exec_singleton _ s _).trans ?_
      simp only [sharedMachine, SharedRing.read, hs]
      rfl
  | cons c copies ih =>
      obtain ⟨bs, hbs, hrest⟩ := Option.bind_eq_some_iff.mp h
      have hnext : (sharedMachine g).next s .read = some { s with
          buffer := s.buffer.store c.dst bs, reader := .copying data size copies } := by
        simp only [sharedMachine, SharedRing.read, hs, hbs, Option.map_some]
      rw [List.length_cons, List.replicate_succ, Machine.exec_cons, hnext, Option.bind_some]
      exact ih rfl hrest

theorem runCopies_prev {load : ℕ → Option UInt8} {data : ℕ} {copies : List Memcpy} :
    ∀ {rb rb' : PerfRingBuffer}, runCopies load data rb copies = some rb' →
      rb'.prev_ = rb.prev_ := by
  induction copies with
  | nil =>
      intro rb rb' h
      cases h
      rfl
  | cons c copies ih =>
      intro rb rb' h
      obtain ⟨bs, -, hrest⟩ := Option.bind_eq_some_iff.mp h
      exact (ih hrest).trans rfl

/-- **Without the kernel, the accesses of `read` are `readFrom`.** -/
theorem exec_read {head : UInt64} {res : ReadResult} (hs : s.reader = .loaded head)
    (h : s.buffer.readFrom g head s.mmap = some res) :
    ∃ n s', (sharedMachine g).exec s (List.replicate (n + 1) .read) = some s' ∧
      s'.mmap = res.mmap ∧ s'.buffer = res.buffer ∧ s'.reader = .returned res.event := by
  by_cases hne : s.buffer.prev_ ≠ head
  · simp only [PerfRingBuffer.readFrom, if_pos hne] at h
    obtain ⟨sizeBytes, hload, h⟩ := Option.bind_eq_some_iff.mp h
    split at h
    case isTrue hwraps =>
      obtain ⟨copies, hcopies, h⟩ := Option.bind_eq_some_iff.mp h
      obtain ⟨rb, hrun, rfl⟩ := Option.map_eq_some_iff.mp h
      have hnext : (sharedMachine g).next s .read = some { s with
          reader := .copying s.buffer.PAGE_SIZE.toNat (UInt64.ofNat (leNat sizeBytes))
            copies } := by
        simp only [sharedMachine, SharedRing.read, hs, if_pos hne, hload, Option.bind_some,
          if_pos hwraps, hcopies, Option.map_some]
      refine ⟨copies.length + 1,
        SharedRing.handOut { s with buffer := rb } (UInt64.ofNat (leNat sizeBytes)) .copy,
        ?_, rfl, ?_, rfl⟩
      · rw [List.replicate_succ, Machine.exec_cons, hnext, Option.bind_some]
        exact exec_copying rfl hrun
      · rw [SharedRing.handOut, runCopies_prev hrun]
    case isFalse hone =>
      cases h
      refine ⟨0, s.handOut (UInt64.ofNat (leNat sizeBytes)) (.ring (s.buffer.PAGE_SIZE.toNat
          + (s.buffer.prev_ &&& s.buffer.mask_.toInt64.toUInt64).toNat)),
        (Machine.exec_singleton _ s _).trans ?_, rfl, rfl, rfl⟩
      simp only [sharedMachine, SharedRing.read, hs, if_pos hne, hload, Option.bind_some,
        if_neg hone]
  · simp only [PerfRingBuffer.readFrom, if_neg hne] at h
    cases h
    refine ⟨0, { s with
        mmap := PerfRingBuffer.write_tail s.mmap s.buffer.prev_
        reader := .returned none }, (Machine.exec_singleton _ s _).trans ?_, rfl, rfl, rfl⟩
    simp only [sharedMachine, SharedRing.read, hs, if_neg hne]

/-- The stores of a record, from one of its bytes on. -/
def storesFrom : ℕ → List UInt8 → List SharedEvent
  | _, [] => []
  | i, b :: bs => .store i b :: storesFrom (i + 1) bs

theorem publish_not_mem_stores {r : Record} {bs : List UInt8} :
    ∀ i, .publish r ∉ storesFrom i bs := by
  induction bs with
  | nil => exact fun _ => List.not_mem_nil
  | cons b bs ih =>
      intro i hmem
      rcases List.mem_cons.mp hmem with heq | hmem
      · cases heq
      · exact ih (i + 1) hmem

theorem exec_stores {bs : List UInt8} :
    ∀ {i : ℕ} {s : SharedRing}, i + bs.length ≤ (s.mmap.free g).toNat →
      (sharedMachine g).exec s (storesFrom i bs) = some { s with mmap := { s.mmap with
        data := put g.capacity s.mmap.data (s.mmap.data_head.toNat + i) bs } } := by
  induction bs with
  | nil => exact fun _ => rfl
  | cons b bs ih =>
      intro i s hroom
      rw [List.length_cons] at hroom
      have hnext : (sharedMachine g).next s (.store i b) = some { s with mmap := { s.mmap with
          data := put g.capacity s.mmap.data (s.mmap.data_head.toNat + i) [b] } } :=
        if_pos (by omega)
      rw [storesFrom, Machine.exec_cons, hnext, Option.bind_some]
      exact ih (by show i + 1 + bs.length ≤ (s.mmap.free g).toNat; omega)

/-- **Storing a record and publishing it is `append`.** -/
theorem exec_append {r : Record} {m : PerfMmap} (h : s.mmap.append g r = some m) :
    (sharedMachine g).exec s (storesFrom 0 r.bytes ++ [.publish r])
      = some { s with mmap := m, accepted := s.accepted ++ [r] } := by
  have hge := g.capacity_ge
  have hlt := r.size_lt
  have hlength : r.size = r.bytes.length := rfl
  simp only [PerfMmap.append, Option.ite_none_right_eq_some, Option.some.injEq] at h
  obtain ⟨hroom, rfl⟩ := h
  have hsize : (UInt64.ofNat r.size).toNat = r.size :=
    UInt64.toNat_ofNat_of_lt' (hlt.trans (by decide))
  have hroom' : 0 + r.bytes.length ≤ (s.mmap.free g).toNat := by
    have hle := UInt64.le_iff_toNat_le.mp hroom
    rw [hsize] at hle
    exact (Nat.zero_add _).trans_le hle
  refine (Machine.exec_append_eq_some _).mpr ⟨_, exec_stores hroom', ?_⟩
  refine (Machine.exec_singleton _ _ _).trans (if_pos ⟨hroom, ?_⟩)
  exact window_put_self s.mmap.data s.mmap.data_head.toNat (by omega)

end Alone

/-! ### What holds between any two accesses -/

/-- The end of the first `k` of the records. -/
def endOf (rs : List Record) (k : ℕ) : ℕ := streamSize (rs.take k)

/-- What the reader is about, `m` records having been published as read and `n` having been
returned. -/
def Reader.Ok (g : Geometry) (rs : List Record) (buffer : PerfRingBuffer) (m n : ℕ) :
    Reader → Prop
  | .returned none => True
  | .returned (some ptr) => ∃ k r, n = k + 1 ∧ m ≤ k ∧ rs[k]? = some r ∧
      (ptr = .ring (g.page + endOf rs k % g.capacity) ∧
          endOf rs k % g.capacity + r.size ≤ g.capacity ∨
        ptr = .copy ∧ r.size ≤ PERF_SAMPLE_MAX_SIZE ∧
          ∀ i < r.size, some (buffer.cell i) = r.bytes[i]?)
  | .loaded head => ∃ k, n ≤ k ∧ k ≤ rs.length ∧ head = UInt64.ofNat (endOf rs k)
  | .copying data size copies => ∃ r, rs[n]? = some r ∧ data = g.page ∧
      size = UInt64.ofNat r.size ∧ g.capacity ≤ endOf rs n % g.capacity + r.size ∧
      ∃ start done, start.Attached g ∧ start.prev_ = UInt64.ofNat (endOf rs n) ∧
        copiesAt g (endOf rs n) r.size = done ++ copies ∧ buffer = assemble r.bytes start done

/-- **The invariant.**  The records between the tail and the head are in the data area, the
reader is among them, and what has been loaded of the records is what they are. -/
structure SharedRing.Inv (g : Geometry) (s : SharedRing) (m : ℕ) : Prop where
  le_count : m ≤ s.count
  count_le : s.count ≤ s.accepted.length
  attached : s.buffer.Attached g
  tail_eq : s.mmap.data_tail = UInt64.ofNat (endOf s.accepted m)
  prev_eq : s.buffer.prev_ = UInt64.ofNat (endOf s.accepted s.count)
  head_eq : s.mmap.data_head = UInt64.ofNat (streamSize s.accepted)
  within : streamSize s.accepted ≤ endOf s.accepted m + g.capacity
  held : window g.capacity s.mmap.data (endOf s.accepted m) (streamSize (s.accepted.drop m))
    = streamBytes (s.accepted.drop m)
  fits : ∀ k r, s.accepted[k]? = some r → EndFits g (endOf s.accepted k) r
  reader : s.reader.Ok g s.accepted s.buffer m s.count
  loads : ∀ x ∈ s.loads, ∃ r, s.accepted[x.record]? = some r ∧ x.record < s.count ∧
    (x.off < r.size → r.bytes[x.off]? = some x.byte)

section Stream

variable {rs : List Record} {r : Record} {k m : ℕ}

theorem endOf_add_drop (rs : List Record) (k : ℕ) :
    endOf rs k + streamSize (rs.drop k) = streamSize rs := by
  rw [endOf, ← streamSize_append, List.take_append_drop]

theorem endOf_mono (rs : List Record) (h : m ≤ k) : endOf rs m ≤ endOf rs k := by
  rw [endOf, endOf, ← List.take_append_drop m (rs.take k), streamSize_append, List.take_take,
    Nat.min_eq_left h]
  exact Nat.le_add_right _ _

theorem endOf_succ (h : rs[k]? = some r) : endOf rs (k + 1) = endOf rs k + r.size := by
  obtain ⟨hk, rfl⟩ := List.getElem?_eq_some_iff.mp h
  rw [endOf, List.take_add_one, List.getElem?_eq_getElem hk, streamSize_append]
  rfl

theorem endOf_le (rs : List Record) (k : ℕ) : endOf rs k ≤ streamSize rs := by
  rw [← endOf_add_drop rs k]
  exact Nat.le_add_right _ _

theorem endOf_concat (h : k ≤ rs.length) : endOf (rs ++ [r]) k = endOf rs k := by
  rw [endOf, endOf, List.take_append_of_le_length h]

/-- Records end at multiples of eight. -/
theorem dvd_endOf (rs : List Record) (k : ℕ) : 8 ∣ endOf rs k := by
  rw [endOf]
  induction rs.take k with
  | nil => exact dvd_zero 8
  | cons r rs ih => exact Nat.dvd_add r.size_dvd ih

theorem length_streamBytes (rs : List Record) : (streamBytes rs).length = streamSize rs := by
  induction rs with
  | nil => rfl
  | cons r rs ih =>
      rw [streamBytes_cons, List.length_append, ih, streamSize_cons]
      rfl

end Stream

/-- What a reader is about does not change when another record is published. -/
theorem Reader.Ok.concat {g : Geometry} {rd : Reader} {rs : List Record}
    {buffer : PerfRingBuffer} {m n : ℕ} (h : rd.Ok g rs buffer m n) (hn : n ≤ rs.length)
    (r : Record) : rd.Ok g (rs ++ [r]) buffer m n := by
  have hget : ∀ {k : ℕ} {r' : Record}, rs[k]? = some r' → (rs ++ [r])[k]? = some r' := by
    intro k r' hk
    rw [List.getElem?_append_left (List.getElem?_eq_some_iff.mp hk).1, hk]
  have hend : ∀ {k}, k ≤ rs.length → endOf (rs ++ [r]) k = endOf rs k := endOf_concat
  cases rd with
  | returned event =>
      cases event with
      | none => trivial
      | some ptr =>
          obtain ⟨k, r', rfl, hm, hk, hptr⟩ := h
          refine ⟨k, r', rfl, hm, hget hk, ?_⟩
          rwa [hend (Nat.le_of_succ_le hn)]
  | loaded head =>
      obtain ⟨k, hle, hk, hhead⟩ := h
      refine ⟨k, hle, ?_, ?_⟩
      · rw [List.length_append]
        omega
      · rwa [hend hk]
  | copying data size copies =>
      obtain ⟨r', hr', hdata, hsize, hreach, start, done, hA, hprev, hcopies, hbuffer⟩ := h
      refine ⟨r', hget hr', hdata, hsize, ?_, start, done, hA, ?_, ?_, hbuffer⟩
      · rwa [hend hn]
      · rwa [hend hn]
      · rwa [hend hn]

namespace SharedRing.Inv

variable {g : Geometry} {s s' : SharedRing} {m k : ℕ} {r : Record}

theorem init (g : Geometry) (data : ℕ → UInt8) : (SharedRing.init g data).Inv g 0 where
  le_count := le_rfl
  count_le := le_rfl
  attached := attached_new g
  tail_eq := rfl
  prev_eq := rfl
  head_eq := rfl
  within := Nat.zero_le _
  held := rfl
  fits k r hk := by cases hk
  reader := trivial
  loads x hx := by cases hx

/-- The room that the kernel computes. -/
theorem toNat_free (h : s.Inv g m) :
    (s.mmap.free g).toNat = endOf s.accepted m + g.capacity - streamSize s.accepted := by
  have hwithin := h.within
  have hle := endOf_le s.accepted m
  have hcap := RingHolds.capacity_lt g
  have hused : s.mmap.data_head - s.mmap.data_tail
      = UInt64.ofNat (streamSize s.accepted - endOf s.accepted m) := by
    rw [← UInt64.toNat_inj, h.head_eq, h.tail_eq, toNat_ofNat_sub (by omega) (by omega),
      UInt64.toNat_ofNat_of_lt' (by simp only [UInt64.size]; omega)]
  rw [PerfMmap.free, hused, toNat_ofNat_sub (by omega) (by omega)]
  omega

/-- The records from any of those on that are held. -/
theorem held_from (h : s.Inv g m) (hm : m ≤ k) (hk : k ≤ s.accepted.length) :
    window g.capacity s.mmap.data (endOf s.accepted k) (streamSize (s.accepted.drop k))
      = streamBytes (s.accepted.drop k) := by
  have hsplit : s.accepted.drop m = (s.accepted.take k).drop m ++ s.accepted.drop k := by
    conv_lhs => rw [← List.take_append_drop k s.accepted]
    exact List.drop_append_of_le_length (by rw [List.length_take]; omega)
  have hbefore : endOf s.accepted m + streamSize ((s.accepted.take k).drop m)
      = endOf s.accepted k := by
    rw [endOf, endOf, ← streamSize_append]
    conv_rhs => rw [← List.take_append_drop m (s.accepted.take k), List.take_take,
      Nat.min_eq_left hm]
  have hheld := h.held
  rw [hsplit, streamSize_append, window_add, streamBytes_append, hbefore] at hheld
  exact List.append_inj_right hheld (by rw [length_window, length_streamBytes])

/-- **A record that has not been published as read is in the data area.** -/
theorem window_record (h : s.Inv g m) (hm : m ≤ k) (hk : s.accepted[k]? = some r) :
    window g.capacity s.mmap.data (endOf s.accepted k) r.size = r.bytes := by
  obtain ⟨hlt, hr⟩ := List.getElem?_eq_some_iff.mp hk
  have hheld := h.held_from hm hlt.le
  rw [List.drop_eq_getElem_cons hlt, hr, streamSize_cons, window_add, streamBytes_cons] at hheld
  exact List.append_inj_left hheld (length_window _ _ _ _)

/-- The header of the record that is next says how long it is. -/
theorem sizeAt_eq (h : s.Inv g m) (hm : m ≤ k) (hk : s.accepted[k]? = some r) :
    sizeAt g s.mmap (endOf s.accepted k) = r.size := by
  rw [sizeAt, ← window_slice (a := 6) (n := 2) (s := r.size) r.size_ge, h.window_record hm hk]
  exact r.size_eq

/-! #### The kernel -/

theorem store {i : ℕ} {b : UInt8} (h : s.Inv g m) (hnext : s.store g i b = some s') :
    s'.Inv g m := by
  simp only [SharedRing.store, Option.ite_none_right_eq_some, Option.some.injEq] at hnext
  obtain ⟨hi, rfl⟩ := hnext
  rw [h.toNat_free] at hi
  have hcell : (s.mmap.data_head.toNat + i) % g.capacity
      = (streamSize s.accepted + i) % g.capacity := by
    rw [h.head_eq, ← Nat.mod_add_mod, g.toNat_ofNat_mod, Nat.mod_add_mod]
  refine { h with held := ?_ }
  have hsum := endOf_add_drop s.accepted m
  show window g.capacity (put g.capacity s.mmap.data (s.mmap.data_head.toNat + i) [b])
    (endOf s.accepted m) (streamSize (s.accepted.drop m)) = streamBytes (s.accepted.drop m)
  rw [put_congr hcell, window_put_of_disjoint _ (by omega)
    (by rw [List.length_singleton]; omega)]
  exact h.held

theorem publish (h : s.Inv g m) (hfit : EndFits g s.mmap.data_head.toNat r)
    (hnext : s.publish g r = some s') : s'.Inv g m := by
  simp only [SharedRing.publish, Option.ite_none_right_eq_some, Option.some.injEq] at hnext
  obtain ⟨⟨hroom, hbytes⟩, rfl⟩ := hnext
  have hsize : (UInt64.ofNat r.size).toNat = r.size :=
    UInt64.toNat_ofNat_of_lt' (r.size_lt.trans (by decide))
  rw [UInt64.le_iff_toNat_le, hsize, h.toNat_free] at hroom
  have hle := h.le_count.trans h.count_le
  have hwithin := h.within
  have hsum := endOf_add_drop s.accepted m
  have hhead : s.mmap.data_head.toNat % g.capacity = streamSize s.accepted % g.capacity := by
    rw [h.head_eq, g.toNat_ofNat_mod]
  have hlast : endOf (s.accepted ++ [r]) s.accepted.length = streamSize s.accepted := by
    rw [endOf_concat le_rfl, endOf, List.take_length]
  have htotal : streamSize (s.accepted ++ [r]) = streamSize s.accepted + r.size := by
    rw [streamSize_append]
    rfl
  refine ⟨h.le_count, ?_, h.attached, ?_, ?_, ?_, ?_, ?_, fun k r' hk => ?_,
    h.reader.concat h.count_le r, fun x hx => ?_⟩
  · show s.count ≤ (s.accepted ++ [r]).length
    rw [List.length_append]
    exact h.count_le.trans (Nat.le_add_right _ _)
  · show s.mmap.data_tail = UInt64.ofNat (endOf (s.accepted ++ [r]) m)
    rw [endOf_concat hle, h.tail_eq]
  · show s.buffer.prev_ = UInt64.ofNat (endOf (s.accepted ++ [r]) s.count)
    rw [endOf_concat h.count_le, h.prev_eq]
  · show s.mmap.data_head + UInt64.ofNat r.size = UInt64.ofNat (streamSize (s.accepted ++ [r]))
    rw [htotal, UInt64.ofNat_add, h.head_eq]
  · show streamSize (s.accepted ++ [r]) ≤ endOf (s.accepted ++ [r]) m + g.capacity
    rw [htotal, endOf_concat hle]
    omega
  · show window g.capacity s.mmap.data (endOf (s.accepted ++ [r]) m)
        (streamSize ((s.accepted ++ [r]).drop m)) = streamBytes ((s.accepted ++ [r]).drop m)
    -- the record is behind those that are held
    rw [endOf_concat hle, List.drop_append_of_le_length hle, streamSize_append, streamBytes_append,
      window_add, h.held, hsum, ← window_mod, ← hhead, window_mod]
    refine congrArg _ ?_
    rw [streamBytes_cons, streamBytes_nil, List.append_nil]
    exact hbytes
  · have hk' : (s.accepted ++ [r])[k]? = some r' := hk
    show EndFits g (endOf (s.accepted ++ [r]) k) r'
    rcases Nat.lt_or_ge k s.accepted.length with hlt | hge
    · rw [List.getElem?_append_left hlt] at hk'
      rw [endOf_concat hlt.le]
      exact h.fits k r' hk'
    · have hlen := (List.getElem?_eq_some_iff.mp hk').1
      rw [List.length_append, List.length_singleton] at hlen
      obtain rfl : k = s.accepted.length := by omega
      rw [List.getElem?_concat_length] at hk'
      cases hk'
      rw [hlast]
      exact (EndFits.congr hhead).mp hfit
  · obtain ⟨r', hr', hlt, hload⟩ := h.loads x hx
    refine ⟨r', ?_, hlt, hload⟩
    show (s.accepted ++ [r])[x.record]? = some r'
    rw [List.getElem?_append_left (hlt.trans_le h.count_le), hr']

/-! #### The reader -/

/-- A reader that is behind the head it has loaded is not at that head. -/
theorem prev_eq_iff (h : s.Inv g m) (hle : s.count ≤ k) (hk : k ≤ s.accepted.length) :
    s.buffer.prev_ = UInt64.ofNat (endOf s.accepted k) ↔ k = s.count := by
  have hcap := RingHolds.capacity_lt g
  have hwithin := h.within
  have hfirst := endOf_mono s.accepted h.le_count
  have hmono := endOf_mono s.accepted hle
  have hlast := endOf_le s.accepted k
  rw [h.prev_eq, ofNat_inj_of_le hmono (by omega)]
  refine ⟨fun heq => ?_, fun heq => by rw [heq]⟩
  by_contra hne
  obtain ⟨r, hr⟩ : ∃ r, s.accepted[s.count]? = some r :=
    ⟨_, List.getElem?_eq_getElem (by omega)⟩
  have hnext := endOf_mono s.accepted (Nat.succ_le_of_lt (hle.lt_of_ne' hne))
  rw [endOf_succ hr] at hnext
  have hpos := r.size_pos
  omega

/-- `read` returns with the record that is next. -/
theorem handOut (h : s.Inv g m) (hr : s.accepted[s.count]? = some r) {ptr : EventPtr}
    (hptr : ptr = .ring (g.page + endOf s.accepted s.count % g.capacity) ∧
        endOf s.accepted s.count % g.capacity + r.size ≤ g.capacity ∨
      ptr = .copy ∧ r.size ≤ PERF_SAMPLE_MAX_SIZE ∧
        ∀ i < r.size, some (s.buffer.cell i) = r.bytes[i]?) :
    (s.handOut (UInt64.ofNat r.size) ptr).Inv g m where
  le_count := h.le_count.trans (Nat.le_succ _)
  count_le := (List.getElem?_eq_some_iff.mp hr).1
  attached := ⟨h.attached.mask_eq, h.attached.page_eq⟩
  tail_eq := h.tail_eq
  prev_eq := by
    show s.buffer.prev_ + UInt64.ofNat r.size = UInt64.ofNat (endOf s.accepted (s.count + 1))
    rw [endOf_succ hr, UInt64.ofNat_add, h.prev_eq]
  head_eq := h.head_eq
  within := h.within
  held := h.held
  fits := h.fits
  reader := ⟨s.count, r, rfl, h.le_count, hr, hptr⟩
  loads x hx := by
    obtain ⟨r', hr', hlt, hload⟩ := h.loads x hx
    exact ⟨r', hr', hlt.trans (Nat.lt_succ_self _), hload⟩

/-- The head has been loaded: the size of the record comes next. -/
theorem read_loaded (h : s.Inv g m) {head : UInt64} (hs : s.reader = .loaded head) :
    ∃ s' m', s.read g = some s' ∧ s'.Inv g m' := by
  have hok := h.reader
  rw [hs] at hok
  obtain ⟨k, hle, hk, rfl⟩ := hok
  by_cases hcaught : k = s.count
  · -- nothing is left: all that has been returned is published as read
    have heq := (h.prev_eq_iff hle hk).mpr hcaught
    refine ⟨{ s with
      mmap := PerfRingBuffer.write_tail s.mmap s.buffer.prev_
      reader := .returned none }, s.count, ?_, le_rfl, h.count_le, h.attached, h.prev_eq,
      h.prev_eq, h.head_eq, ?_, ?_, h.fits, trivial, h.loads⟩
    · simp only [SharedRing.read, hs, heq, ne_eq, not_true, if_false]
    · exact h.within.trans (Nat.add_le_add_right (endOf_mono _ h.le_count) _)
    · exact h.held_from h.le_count h.count_le
  · have hne := mt (h.prev_eq_iff hle hk).mp hcaught
    obtain ⟨r, hr⟩ : ∃ r, s.accepted[s.count]? = some r :=
      ⟨_, List.getElem?_eq_getElem (by omega)⟩
    have hlt := r.size_lt
    have hmod := Nat.mod_lt (endOf s.accepted s.count) g.capacity_pos
    have hdvd := dvd_endOf s.accepted s.count
    have hindex : (s.buffer.prev_ &&& s.buffer.mask_.toInt64.toUInt64).toNat
        = endOf s.accepted s.count % g.capacity := by
      rw [h.attached.mask_eq, h.prev_eq, g.toNat_and_mask, g.toNat_ofNat_mod]
    obtain ⟨bs, hbs, hsize⟩ := Option.map_eq_some_iff.mp (load_size (m := s.mmap) hdvd)
    rw [h.sizeAt_eq h.le_count hr] at hsize
    have hmask : s.buffer.mask_ = g.mask := h.attached.mask_eq
    by_cases hreach : g.capacity ≤ endOf s.accepted s.count % g.capacity + r.size
    · -- the record reaches the end of the data area, and is to be copied
      have hcopies : copyLoop s.buffer.mask_ ((UInt64.ofNat r.size).toNat + 1)
          s.buffer.prev_.toUInt32 (UInt64.ofNat r.size).toUInt32 0
            = some (copiesAt g (endOf s.accepted s.count) r.size) := by
        rw [hmask, h.prev_eq, UInt64.toNat_ofNat_of_lt' (hlt.trans (by decide))]
        exact copyLoop_eq g (by omega) hlt hreach
      have hwraps : (s.buffer.prev_ &&& s.buffer.mask_.toInt64.toUInt64) + UInt64.ofNat r.size
          ≠ ((s.buffer.prev_ + UInt64.ofNat r.size) &&& s.buffer.mask_.toInt64.toUInt64) := by
        rw [hmask, h.prev_eq]
        exact (g.wraps_iff _ _ hlt).mpr hreach
      refine ⟨{ s with
        reader := .copying g.page (UInt64.ofNat r.size)
          (copiesAt g (endOf s.accepted s.count) r.size) }, m, ?_, { h with reader := ?_ }⟩
      · simp only [SharedRing.read, hs, if_pos hne, hindex, h.attached.page_eq, g.toNat_page, hbs,
          Option.bind_some, hsize, if_pos hwraps, hcopies, Option.map_some]
      · exact ⟨r, hr, rfl, rfl, hreach, s.buffer, [], h.attached, h.prev_eq, rfl, rfl⟩
    · have hone : ¬ (s.buffer.prev_ &&& s.buffer.mask_.toInt64.toUInt64) + UInt64.ofNat r.size
          ≠ ((s.buffer.prev_ + UInt64.ofNat r.size) &&& s.buffer.mask_.toInt64.toUInt64) := by
        rw [hmask, h.prev_eq]
        exact mt (g.wraps_iff _ _ hlt).mp hreach
      refine ⟨_, m, ?_, h.handOut hr (Or.inl ⟨rfl, by omega⟩)⟩
      simp only [SharedRing.read, hs, if_pos hne, hindex, h.attached.page_eq, g.toNat_page, hbs,
        Option.bind_some, hsize, if_neg hone]

/-- A copy, or the return after the last one. -/
theorem read_copying (h : s.Inv g m) {data : ℕ} {size : UInt64} {copies : List Memcpy}
    (hs : s.reader = .copying data size copies) : ∃ s', s.read g = some s' ∧ s'.Inv g m := by
  have hok := h.reader
  rw [hs] at hok
  obtain ⟨r, hr, rfl, rfl, hreach, start, done, hA, hprev, hcopies, hbuffer⟩ := hok
  have hlt := r.size_lt
  have hfit : r.size ≤ PERF_SAMPLE_MAX_SIZE := h.fits s.count r hr hreach
  have hmem := h.window_record h.le_count hr
  cases copies with
  | nil =>
      refine ⟨_, by simp only [SharedRing.read, hs], h.handOut hr (Or.inr ⟨rfl, hfit, ?_⟩)⟩
      rw [List.append_nil] at hcopies
      obtain ⟨rb', hrun, -, hcell⟩ := runCopies_copiesAt (m := s.mmap) start hreach hlt
      rw [runCopies_eq fun c hc => loadBytes_copiesAt hmem hreach hlt hc, hcopies,
        ← hbuffer] at hrun
      cases hrun
      rw [hmem] at hcell
      exact (hcell hfit).2
  | cons c copies =>
      have hc : c ∈ copiesAt g (endOf s.accepted s.count) r.size := by
        rw [hcopies]
        exact List.mem_append_right _ List.mem_cons_self
      have hload := loadBytes_copiesAt hmem hreach hlt hc
      have hin := (copiesInside_copiesAt hreach).mpr hfit c hc
      have hattached := attached_store r.bytes h.attached hin
      refine ⟨{ s with
        buffer := s.buffer.store c.dst ((r.bytes.drop c.dst).take c.nbytes)
        reader := .copying g.page (UInt64.ofNat r.size) copies }, ?_,
        { h with attached := hattached, reader := ?_ }⟩
      · simp only [SharedRing.read, hs, hload, Option.map_some]
      · refine ⟨r, hr, rfl, rfl, hreach, start, done ++ [c], hA, hprev, ?_, ?_⟩
        · rw [hcopies, List.append_assoc]
          rfl
        · show s.buffer.store c.dst _ = _
          rw [assemble_concat, ← hbuffer]

/-- **The next access of `read`.** -/
theorem read (h : s.Inv g m) : ∃ s' m', s.read g = some s' ∧ s'.Inv g m' := by
  cases hs : s.reader with
  | returned event =>
      refine ⟨{ s with reader := .loaded (PerfRingBuffer.read_head s.mmap) }, m, ?_,
        { h with reader := ?_ }⟩
      · simp only [SharedRing.read, hs]
      · refine ⟨s.accepted.length, h.count_le, le_rfl, h.head_eq.trans ?_⟩
        rw [endOf, List.take_length]
  | loaded head => exact h.read_loaded hs
  | copying data size copies =>
      obtain ⟨s', hnext, hinv⟩ := h.read_copying hs
      exact ⟨s', m, hnext, hinv⟩

/-! #### The caller of `read` -/

/-- **Behind the pointer is the record that was returned last**, however far the kernel has
come. -/
theorem behind (h : s.Inv g m) {ptr : EventPtr} (hs : s.reader = .returned (some ptr)) :
    ∃ k r, s.count = k + 1 ∧ s.accepted[k]? = some r ∧
      ∀ off < r.size, ptr.load g s.mmap s.buffer off = r.bytes[off]? := by
  have hok := h.reader
  rw [hs] at hok
  obtain ⟨k, r, hcount, hm, hk, ⟨rfl, hend⟩ | ⟨rfl, hfit, hcell⟩⟩ := hok
  · refine ⟨k, r, hcount, hk, fun off hoff => ?_⟩
    have hindex : (endOf s.accepted k + off) % g.capacity
        = endOf s.accepted k % g.capacity + off := by
      rw [← Nat.mod_add_mod, Nat.mod_eq_of_lt (by omega)]
    rw [EventPtr.load, Nat.add_assoc, load_data (by omega), ← h.window_record hm hk,
      getElem?_window hoff, hindex]
  · refine ⟨k, r, hcount, hk, fun off hoff => ?_⟩
    have hoff' : off < PERF_SAMPLE_MAX_SIZE := hoff.trans_le hfit
    rw [EventPtr.load, dif_pos hoff', ← hcell off hoff, PerfRingBuffer.cell_of_lt _ hoff']

theorem load {off : ℕ} (h : s.Inv g m) (hnext : s.load g off = some s') : s'.Inv g m := by
  unfold SharedRing.load at hnext
  split at hnext
  case h_1 ptr hs =>
    obtain ⟨b, hb, rfl⟩ := Option.map_eq_some_iff.mp hnext
    obtain ⟨k, r, hcount, hk, hload⟩ := h.behind hs
    refine { h with loads := fun x hx => ?_ }
    rcases List.mem_append.mp hx with hx | hx
    · exact h.loads x hx
    · cases List.mem_singleton.mp hx
      have hlast : s.count - 1 = k := by omega
      refine ⟨r, hlast ▸ hk, ?_, fun hoff => ?_⟩
      · show s.count - 1 < s.count
        omega
      · rw [← hload off hoff, hb]
  case h_2 => cases hnext

end SharedRing.Inv

/-! ### The result -/

/-- A record that is published, and reaches or crosses the end of the data area, fits
`event_copy_`: it has at most `PERF_SAMPLE_MAX_SIZE` bytes. -/
def PublishFits (g : Geometry) (s : SharedRing) : SharedEvent → Prop
  | .publish r => EndFits g s.mmap.data_head.toNat r
  | _ => True

theorem along_publishFits {g : Geometry} {s : SharedRing} {es : List SharedEvent}
    (h : ∀ r, .publish r ∈ es → r.size ≤ PERF_SAMPLE_MAX_SIZE) :
    (sharedMachine g).Along (PublishFits g) s es := by
  refine Machine.along_of_forall_mem _ fun e he s => ?_
  cases e with
  | publish r => exact fun _ => h r he
  | _ => trivial

theorem SharedRing.Inv.step {g : Geometry} {s s' : SharedRing} {m : ℕ} {e : SharedEvent}
    (h : s.Inv g m) (hfit : PublishFits g s e) (hnext : (sharedMachine g).next s e = some s') :
    ∃ m', s'.Inv g m' := by
  cases e with
  | store i b => exact ⟨m, h.store hnext⟩
  | publish r => exact ⟨m, h.publish hfit hnext⟩
  | read =>
      obtain ⟨s₁, m', hread, hinv⟩ := h.read
      cases hread.symm.trans hnext
      exact ⟨m', hinv⟩
  | load off => exact ⟨m, h.load hnext⟩

/-- **What `read` has returned stays what it is.**  Kernel, `read` and its caller take turns
between any two accesses: the kernel may be in the middle of a record while `read` is in the
middle of its copies, or while its caller uses the pointer.  The records may be of any type and
length, except where one reaches or crosses the end of the data area: there it is to fit
`event_copy_` (`PublishFits`).  Then, in every state reached:

* `read` can make its next access, and none of them is outside the data area;
* behind the pointer it has returned last is, byte for byte, the accepted record whose turn it
  was;
* and so each byte that its caller has ever loaded is a byte of the record it was loaded for. -/
theorem loads_of_returned (g : Geometry) (data : ℕ → UInt8) {es : List SharedEvent}
    {s : SharedRing}
    (hfit : (sharedMachine g).Along (PublishFits g) (SharedRing.init g data) es)
    (hrun : (sharedMachine g).exec (SharedRing.init g data) es = some s) :
    (∃ s', (sharedMachine g).next s .read = some s') ∧
    (∀ ptr, s.reader = .returned (some ptr) →
      ∃ k r, s.count = k + 1 ∧ s.accepted[k]? = some r ∧
        ∀ off < r.size, ptr.load g s.mmap s.buffer off = r.bytes[off]?) ∧
    ∀ x ∈ s.loads, ∃ r, s.accepted[x.record]? = some r ∧ x.record < s.count ∧
      (x.off < r.size → r.bytes[x.off]? = some x.byte) := by
  obtain ⟨m, h⟩ : ∃ m, s.Inv g m :=
    (sharedMachine g).exec_invariant (I := fun s => ∃ m, s.Inv g m)
      (fun _ _ _ ⟨_, hinv⟩ hq hnext => hinv.step hq hnext) ⟨0, .init g data⟩ hfit hrun
  obtain ⟨s', -, hread, -⟩ := h.read
  exact ⟨⟨s', hread⟩, fun ptr => h.behind, h.loads⟩

set_option maxRecDepth 10000 in
/-- A sample is returned, and the next one is stored and published before its address is
loaded. -/
theorem loads_of_returned_late :
    let e₁ : SamplingEvent := ⟨0, 0x401000, 0x7ffe0010, 0x2⟩
    let e₂ : SamplingEvent := ⟨0, 0x401004, 0x7ffe0018, 0x4⟩
    let es : List SharedEvent := storesFrom 0 e₁.bytes ++ .publish e₁.record :: .read :: .read
      :: storesFrom 0 e₂.bytes ++ [.publish e₂.record, .load 16, .load 17]
    ∃ s, (sharedMachine .x86).exec (SharedRing.init .x86 fun _ => 0) es = some s ∧
      s.loads.length = 2 ∧ ∀ x ∈ s.loads, e₁.bytes[x.off]? = some x.byte := by
  intro e₁ e₂ es
  have hfit : (sharedMachine .x86).Along (PublishFits .x86) (SharedRing.init .x86 fun _ => 0)
      es := by
    refine along_publishFits fun r hr => ?_
    have hr : r = e₁.record ∨ r = e₂.record := by
      simpa [es, publish_not_mem_stores] using hr
    rcases hr with rfl | rfl
    · exact e₁.size_record_le
    · exact e₂.size_record_le
  have hlast : ((sharedMachine .x86).exec (SharedRing.init .x86 fun _ => 0) es).map
      (fun s => (s.accepted.map Record.bytes, s.loads.map fun x => (x.record, x.off)))
        = some ([e₁.bytes, e₂.bytes], [(0, 16), (0, 17)]) := by
    decide +kernel
  obtain ⟨s, hrun, hs⟩ := Option.map_eq_some_iff.mp hlast
  obtain ⟨haccepted, hloads⟩ := Prod.mk.inj hs
  obtain ⟨-, -, hbytes⟩ := loads_of_returned .x86 _ hfit hrun
  refine ⟨s, hrun, ?_, fun x hx => ?_⟩
  · simpa using congrArg List.length hloads
  · obtain ⟨r, hr, -, hbyte⟩ := hbytes x hx
    have hrecord : x.record = 0 ∧ x.off < 32 := by
      have hmem : (x.record, x.off) ∈ [(0, 16), (0, 17)] :=
        hloads ▸ List.mem_map.mpr ⟨x, hx, rfl⟩
      simp only [List.mem_cons, Prod.mk.injEq, List.not_mem_nil, or_false] at hmem
      omega
    have hr' : r.bytes = e₁.bytes := by
      have hfirst := congrArg (fun l => l[0]?) haccepted
      rw [hrecord.1] at hr
      simp only [List.getElem?_map, hr] at hfirst
      exact Option.some.inj hfirst
    rw [← hr']
    refine hbyte ?_
    rw [Record.size, hr', e₁.length_bytes]
    exact hrecord.2

end AccessSampling
