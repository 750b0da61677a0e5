import AccessSampling.RingRead
import AccessSampling.Foundation.Machine

/-!
# The ring protocol

The kernel appends records to the data area and advances `data_head`; the plugin
reads them, advances `prev_`, and publishes `prev_` as `data_tail` only when it
has caught up.  Both sides keep their counters modulo `2 ^ 64`.

The abstract content of a ring is the queue of records between `prev_` and
`data_head`.  `RingHolds` relates the concrete state to that queue, through
unbounded counters of which the machine's are the truncations.  Each operation
then has one specification:

* `append_holds` — an accepted record joins the back of the queue;
* `read_holds_cons` — `read` hands out the front of the queue;
* `read_holds_nil` — a caught-up `read` returns null and publishes the tail.

The second half is the system: kernel and reader take steps in any order, and the
kernel may take some between `read_head` and the rest of `read`.

### What the kernel promises

`PerfMmap.append` is the kernel's half of the protocol: it goes by `data_tail`, and drops a
record that does not fit into what lies between its own position and that tail.  Records
of any type and length are produced here, whether they fit or not.

The one condition is `EndFits`: a record that reaches the end of the data area fits
`event_copy_`.  It is asked of the records that the kernel *accepts*, and only where they
come to lie, so a long record elsewhere does no harm; where it fails, there is no protocol
any more (`event_copy_safe_iff`).

### Why unbounded counters

`prev_` and `data_head` wrap at `2 ^ 64`, and are only ever compared for equality or
masked.  `RingHolds` keeps the positions that they stand for, so that "before", "between"
and "at most the capacity apart" mean what they say; that the distances survive the
truncation is `toNat_ofNat_sub`.
-/

namespace AccessSampling

open Foundation

/-! ## The kernel's side -/

/-- The kernel appends a record if it fits in the free part of the data area, and
drops it (`none`) otherwise. -/
def PerfMmap.append (g : Geometry) (m : PerfMmap) (r : Record) : Option PerfMmap :=
  let free := UInt64.ofNat g.capacity - (m.data_head - m.data_tail)
  if UInt64.ofNat r.size ≤ free then
    some { m with
      data := put g.capacity m.data m.data_head.toNat r.bytes
      data_head := m.data_head + UInt64.ofNat r.size }
  else none

/-- The record fits `event_copy_` if it would reach the end of the data area when
written at position `p`. -/
def EndFits (g : Geometry) (p : ℕ) (r : Record) : Prop :=
  g.capacity ≤ p % g.capacity + r.size → r.size ≤ PERF_SAMPLE_MAX_SIZE

/-- `EndFits` for records written one after the other from position `p` on. -/
def EndFitsAll (g : Geometry) : ℕ → List Record → Prop
  | _, [] => True
  | p, r :: rs => EndFits g p r ∧ EndFitsAll g (p + r.size) rs

theorem endFitsAll_concat {g : Geometry} {p : ℕ} {rs : List Record} {r : Record} :
    EndFitsAll g p (rs ++ [r]) ↔ EndFitsAll g p rs ∧ EndFits g (p + streamSize rs) r := by
  induction rs generalizing p with
  | nil => simp [EndFitsAll]
  | cons a rs ih =>
      rw [List.cons_append, EndFitsAll, EndFitsAll, ih, and_assoc, streamSize_cons,
        Nat.add_assoc]

theorem EndFits.congr {g : Geometry} {p q : ℕ} {r : Record}
    (h : p % g.capacity = q % g.capacity) : EndFits g p r ↔ EndFits g q r := by
  rw [EndFits, EndFits, h]

/-! ## The queue a ring holds -/

/-- The ring holds the queue `q`: with `t`, `p` the unbounded counters behind
`data_tail` and `prev_`, the data area contains `q` at positions `p` and after, all
of it within one revolution of `t`. -/
structure RingHolds (g : Geometry) (m : PerfMmap) (rb : PerfRingBuffer) (t p : ℕ)
    (q : List Record) : Prop where
  attached : rb.Attached g
  tail_eq : m.data_tail = UInt64.ofNat t
  prev_eq : rb.prev_ = UInt64.ofNat p
  head_eq : m.data_head = UInt64.ofNat (p + streamSize q)
  tail_le : t ≤ p
  within : p + streamSize q ≤ t + g.capacity
  aligned : 8 ∣ p
  stored : window g.capacity m.data p (streamSize q) = streamBytes q

namespace RingHolds

variable {g : Geometry} {m : PerfMmap} {rb : PerfRingBuffer} {t p : ℕ}
variable {q : List Record}

/-- A fresh mapping and a fresh reader hold nothing. -/
theorem init (g : Geometry) (data : ℕ → UInt8) :
    RingHolds g ⟨0, 0, data⟩ (PerfRingBuffer.new g) 0 0 [] where
  attached := attached_new g
  tail_eq := rfl
  prev_eq := rfl
  head_eq := rfl
  tail_le := le_rfl
  within := Nat.zero_le _
  aligned := dvd_zero 8
  stored := rfl

theorem capacity_lt (g : Geometry) : g.capacity < 2 ^ 64 :=
  g.capacity_le.trans_lt (by decide)

/-- The reader has caught up with a counter exactly when nothing lies between. -/
theorem prev_eq_iff (h : RingHolds g m rb t p q) {n : ℕ} (hn : n ≤ streamSize q) :
    rb.prev_ = UInt64.ofNat (p + n) ↔ n = 0 := by
  have hwithin := h.within
  have htail := h.tail_le
  have hcap := capacity_lt g
  rw [h.prev_eq, ofNat_inj_of_le (by omega) (by omega)]
  omega

/-- The room the kernel computes. -/
theorem toNat_free (h : RingHolds g m rb t p q) :
    (UInt64.ofNat g.capacity - (m.data_head - m.data_tail)).toNat
      = t + g.capacity - (p + streamSize q) := by
  have hwithin := h.within
  have htail := h.tail_le
  have hcap := capacity_lt g
  have hused : m.data_head - m.data_tail = UInt64.ofNat (p + streamSize q - t) := by
    rw [← UInt64.toNat_inj, h.head_eq, h.tail_eq, toNat_ofNat_sub (by omega) (by omega),
      UInt64.toNat_ofNat_of_lt' (by simp only [UInt64.size]; omega)]
  rw [hused, toNat_ofNat_sub (by omega) (by omega)]
  omega

theorem append_eq_some_iff (h : RingHolds g m rb t p q) (r : Record) :
    (m.append g r).isSome ↔ p + streamSize q + r.size ≤ t + g.capacity := by
  have hwithin := h.within
  have hlt := r.size_lt
  have hsize : (UInt64.ofNat r.size).toNat = r.size :=
    UInt64.toNat_ofNat_of_lt' (hlt.trans (by decide))
  rw [PerfMmap.append]
  simp only [UInt64.le_iff_toNat_le, hsize, h.toNat_free]
  split
  case isTrue hle => exact ⟨fun _ => by omega, fun _ => rfl⟩
  case isFalse hle => exact ⟨fun hsome => by simp at hsome, fun hfits => by omega⟩

/-- **An accepted record joins the back of the queue.** -/
theorem append_holds (h : RingHolds g m rb t p q) {r : Record} {m' : PerfMmap}
    (happ : m.append g r = some m') : RingHolds g m' rb t p (q ++ [r]) := by
  have hroom := (h.append_eq_some_iff r).mp (by rw [happ]; rfl)
  have htail := h.tail_le
  have hm' : m' = { m with
      data := put g.capacity m.data (p + streamSize q) r.bytes
      data_head := UInt64.ofNat (p + streamSize q + r.size) } := by
    rw [PerfMmap.append] at happ
    simp only [Option.ite_none_right_eq_some, Option.some.injEq] at happ
    rw [← happ.2, h.head_eq, UInt64.ofNat_add (p + streamSize q)]
    refine congrArg (PerfMmap.mk _ _) (put_congr ?_)
    exact g.toNat_ofNat_mod _
  have hsize : streamSize (q ++ [r]) = streamSize q + r.bytes.length := by
    rw [streamSize_append]; rfl
  refine ⟨h.attached, ?_, h.prev_eq, ?_, h.tail_le, ?_, h.aligned, ?_⟩
  · rw [hm']; exact h.tail_eq
  · rw [hm', hsize, ← Nat.add_assoc]; rfl
  · rw [hsize, ← Nat.add_assoc]; exact hroom
  · rw [hm', hsize, streamBytes_append, ← h.stored]
    have hlen : streamSize q + r.bytes.length ≤ g.capacity := by
      have : r.size = r.bytes.length := rfl
      omega
    rw [window_put_append m.data hlen]
    simp [streamBytes]

/-- The front of the queue lies at the reader's position, the rest behind it. -/
theorem stored_cons {r : Record} (h : RingHolds g m rb t p (r :: q)) :
    window g.capacity m.data p r.size = r.bytes ∧
      window g.capacity m.data (p + r.size) (streamSize q) = streamBytes q := by
  have hstored := h.stored
  rw [streamSize_cons, window_add, streamBytes_cons] at hstored
  exact List.append_inj hstored (length_window _ _ _ _)

/-- **`read` hands out the front of the queue.** -/
theorem read_holds_cons {r : Record} (h : RingHolds g m rb t p (r :: q)) {head : UInt64}
    (hne : rb.prev_ ≠ head) (hfit : EndFits g p r) :
    ∃ res, rb.readFrom g head m = some res ∧ HandsOut g m p r.bytes res ∧
      RingHolds g res.mmap res.buffer t (p + r.size) q := by
  have hwithin := h.within
  rw [streamSize_cons] at hwithin
  obtain ⟨hfront, hback⟩ := h.stored_cons
  obtain ⟨res, hread, hout⟩ :=
    readFrom_record h.attached h.prev_eq h.aligned hne hfront hfit
  refine ⟨res, hread, hout, hout.attached, ?_, hout.prev_eq, ?_, ?_, ?_, ?_, ?_⟩
  · rw [hout.mmap_eq]; exact h.tail_eq
  · rw [hout.mmap_eq, h.head_eq, streamSize_cons, Nat.add_assoc]
  · exact h.tail_le.trans (Nat.le_add_right _ _)
  · omega
  · exact Nat.dvd_add h.aligned r.size_dvd
  · rw [hout.mmap_eq]; exact hback

/-- **A caught-up `read` returns null and publishes the tail.** -/
theorem read_holds_nil (h : RingHolds g m rb t p q) {head : UInt64}
    (heq : rb.prev_ = head) :
    ∃ m', rb.readFrom g head m = some ⟨none, [], rb, m'⟩ ∧ RingHolds g m' rb p p q := by
  have hwithin := h.within
  have htail := h.tail_le
  refine ⟨_, readFrom_caught_up heq, h.attached, ?_, h.prev_eq, h.head_eq, le_rfl, ?_,
    h.aligned, h.stored⟩
  · exact h.prev_eq
  · omega

end RingHolds

/-! ## The system -/

/-- The record behind a pointer: its header says how long it is. -/
def recordAt (load : ℕ → Option UInt8) : Option (List UInt8) :=
  (loadBytes load 6 2).bind fun sizeBytes => loadBytes load 0 (leNat sizeBytes)

theorem recordAt_eq {load : ℕ → Option UInt8} {r : Record}
    (h : ∀ i < r.bytes.length, load i = r.bytes[i]?) : recordAt load = some r.bytes := by
  have hsize : leNat ((r.bytes.drop 6).take 2) = r.bytes.length := r.size_eq
  rw [recordAt, loadBytes_slice h r.size_ge, Option.bind_some, hsize,
    loadBytes_slice h (Nat.zero_add _).le]
  simp

/-- A ring, its reader, and what has happened so far. -/
structure Ring where
  mmap : PerfMmap
  buffer : PerfRingBuffer
  /-- The head a call of `read` in progress has loaded. -/
  loaded : Option UInt64
  /-- The records the kernel has accepted. -/
  accepted : List Record
  /-- The bytes behind the pointers `read` has returned. -/
  returned : List (List UInt8)
  /-- How many records had been accepted when the head was last loaded. -/
  seen : ℕ

inductive RingEvent where
  /-- The kernel has a record for the ring. -/
  | produce (r : Record)
  /-- `read` is called and loads `data_head`. -/
  | load
  /-- `read` does the rest and returns. -/
  | finish

/-- A fresh mapping, whatever bytes it contains, and a fresh reader. -/
def Ring.init (g : Geometry) (data : ℕ → UInt8) : Ring where
  mmap := ⟨0, 0, data⟩
  buffer := PerfRingBuffer.new g
  loaded := none
  accepted := []
  returned := []
  seen := 0

/-- The rest of `read`, with what its caller finds behind the returned pointer. -/
def Ring.finish (g : Geometry) (s : Ring) (head : UInt64) : Option Ring :=
  (s.buffer.readFrom g head s.mmap).bind fun res =>
    match res.event with
    | none => some { s with mmap := res.mmap, buffer := res.buffer, loaded := none }
    | some ptr => (recordAt (ptr.load g res.mmap res.buffer)).map fun bs =>
        { s with
          mmap := res.mmap, buffer := res.buffer, loaded := none
          returned := s.returned ++ [bs] }

/-- The ring system of one perf event. -/
def ringMachine (g : Geometry) : Machine Ring RingEvent where
  next s
    | .produce r =>
        match s.mmap.append g r with
        | some m => some { s with mmap := m, accepted := s.accepted ++ [r] }
        | none => some s
    | .load =>
        match s.loaded with
        | some _ => none
        | none => some { s with
            loaded := some (PerfRingBuffer.read_head s.mmap), seen := s.accepted.length }
    | .finish => s.loaded.bind (s.finish g)

/-- A record the kernel accepts at the end of the data area fits `event_copy_`. -/
def EndRecordsFit (g : Geometry) (s : Ring) : RingEvent → Prop
  | .produce r => (s.mmap.append g r).isSome → EndFits g s.mmap.data_head.toNat r
  | _ => True

/-- **The ring invariant**: of the accepted records the first `n` have been returned
and the first `m` published, and the ring holds the others. -/
structure Ring.Inv (g : Geometry) (s : Ring) (m n : ℕ) : Prop where
  published_le : m ≤ n
  returned_le : n ≤ s.accepted.length
  holds : RingHolds g s.mmap s.buffer (streamSize (s.accepted.take m))
    (streamSize (s.accepted.take n)) (s.accepted.drop n)
  fits : EndFitsAll g (streamSize (s.accepted.take n)) (s.accepted.drop n)
  returned_eq : s.returned = (s.accepted.take n).map Record.bytes
  loaded : ∀ head, s.loaded = some head → n ≤ s.seen ∧ s.seen ≤ s.accepted.length ∧
    head = UInt64.ofNat (streamSize (s.accepted.take s.seen))

namespace Ring.Inv

variable {g : Geometry} {s s' : Ring} {m n : ℕ}

theorem init (g : Geometry) (data : ℕ → UInt8) : (Ring.init g data).Inv g 0 0 where
  published_le := le_rfl
  returned_le := le_rfl
  holds := RingHolds.init g data
  fits := trivial
  returned_eq := rfl
  loaded := by intro head h; cases h

/-- The counters of the ring are those of its accepted records. -/
theorem streamSize_take_add_drop (s : Ring) (n : ℕ) :
    streamSize (s.accepted.take n) + streamSize (s.accepted.drop n)
      = streamSize s.accepted := by
  rw [← streamSize_append, List.take_append_drop]

theorem produce (h : s.Inv g m n) {r : Record} (hfit : EndRecordsFit g s (.produce r))
    (hnext : (ringMachine g).next s (.produce r) = some s') : s'.Inv g m n := by
  have hsum := streamSize_take_add_drop s n
  cases happ : s.mmap.append g r with
  | none =>
      simp only [ringMachine, happ, Option.some.injEq] at hnext
      exact hnext ▸ h
  | some mm =>
      simp only [ringMachine, happ, Option.some.injEq] at hnext
      subst hnext
      have hn := h.returned_le
      have hm := h.published_le
      have hpos : s.mmap.data_head.toNat % g.capacity
          = (streamSize (s.accepted.take n) + streamSize (s.accepted.drop n))
              % g.capacity := by
        rw [h.holds.head_eq, g.toNat_ofNat_mod]
      have hend := (EndFits.congr hpos).mp (hfit (by rw [happ]; rfl))
      have htake : ∀ k ≤ s.accepted.length,
          (s.accepted ++ [r]).take k = s.accepted.take k :=
        fun k hk => List.take_append_of_le_length hk
      have hdrop : (s.accepted ++ [r]).drop n = s.accepted.drop n ++ [r] :=
        List.drop_append_of_le_length hn
      refine ⟨hm, by simp; omega, ?_, ?_, ?_, fun head hl => ?_⟩
      · simp only [htake n hn, htake m (hm.trans hn), hdrop]
        exact h.holds.append_holds happ
      · simp only [htake n hn, hdrop]
        exact endFitsAll_concat.mpr ⟨h.fits, hend⟩
      · simp only [htake n hn]
        exact h.returned_eq
      · obtain ⟨h1, h2, h3⟩ := h.loaded head hl
        refine ⟨h1, by simp; omega, ?_⟩
        simp only [htake s.seen h2]
        exact h3

theorem load (h : s.Inv g m n) (hnext : (ringMachine g).next s .load = some s') :
    s'.Inv g m n := by
  cases hl : s.loaded with
  | some head => simp [ringMachine, hl] at hnext
  | none =>
      simp only [ringMachine, hl, Option.some.injEq] at hnext
      subst hnext
      refine ⟨h.published_le, h.returned_le, h.holds, h.fits, h.returned_eq,
        fun head hhead => ?_⟩
      refine ⟨h.returned_le, le_rfl, ?_⟩
      rw [List.take_length, ← streamSize_take_add_drop s n, ← h.holds.head_eq]
      exact (Option.some.inj hhead).symm

/-- A call of `read` that loaded its own position returns null and publishes it. -/
theorem finish_caught (h : s.Inv g m n) {head : UInt64} (hl : s.loaded = some head)
    (hcaught : s.seen = n) :
    ∃ s', (ringMachine g).next s .finish = some s' ∧ s'.accepted = s.accepted ∧
      s'.loaded = none ∧ s'.Inv g n n := by
  obtain ⟨-, -, hhead⟩ := h.loaded head hl
  have hnext : (ringMachine g).next s .finish = s.finish g head := by
    simp [ringMachine, hl]
  have heq : s.buffer.prev_ = head := by
    rw [h.holds.prev_eq, hhead, hcaught]
  obtain ⟨mm, hread, hholds⟩ := h.holds.read_holds_nil heq
  rw [hnext, Ring.finish, hread]
  exact ⟨_, rfl, rfl, rfl, le_rfl, h.returned_le, hholds, h.fits, h.returned_eq,
    fun _ hnone => by cases hnone⟩

/-- A reader that is behind the head it loaded is not at that head. -/
theorem prev_ne_head (h : s.Inv g m n) {head : UInt64} (hl : s.loaded = some head)
    (hlt : n < s.seen) : s.buffer.prev_ ≠ head := by
  obtain ⟨hn, hseen, hhead⟩ := h.loaded head hl
  -- the head is the reader's position plus what lies between
  have hbetween : streamSize (s.accepted.take s.seen)
      = streamSize (s.accepted.take n)
        + streamSize ((s.accepted.drop n).take (s.seen - n)) := by
    rw [← streamSize_append, ← List.take_add, Nat.add_sub_cancel' hn]
  have hpos : streamSize ((s.accepted.drop n).take (s.seen - n)) ≠ 0 := by
    refine (streamSize_pos fun hnil => ?_).ne'
    have hlen := congrArg List.length hnil
    rw [List.length_take, List.length_drop, List.length_nil] at hlen
    omega
  have hle : streamSize ((s.accepted.drop n).take (s.seen - n))
      ≤ streamSize (s.accepted.drop n) := by
    conv_rhs => rw [← List.take_append_drop (s.seen - n) (s.accepted.drop n)]
    rw [streamSize_append]
    exact Nat.le_add_right _ _
  rw [hhead, hbetween]
  exact mt (h.holds.prev_eq_iff hle).mp hpos

/-- A call of `read` that loaded a head beyond its position returns the next
accepted record, and never leaves the data area. -/
theorem finish_behind (h : s.Inv g m n) {head : UInt64} (hl : s.loaded = some head)
    (hlt : n < s.seen) :
    ∃ s', (ringMachine g).next s .finish = some s' ∧ s'.accepted = s.accepted ∧
      s'.loaded = none ∧ s'.Inv g m (n + 1) := by
  have hseen := (h.loaded head hl).2.1
  have hnext : (ringMachine g).next s .finish = s.finish g head := by
    simp [ringMachine, hl]
  have hlen : n < s.accepted.length := by omega
  have hdrop : s.accepted.drop n = s.accepted[n] :: s.accepted.drop (n + 1) :=
    List.drop_eq_getElem_cons hlen
  have htake : s.accepted.take (n + 1) = s.accepted.take n ++ [s.accepted[n]] :=
    (List.take_append_getElem hlen).symm
  have hsize : streamSize (s.accepted.take (n + 1))
      = streamSize (s.accepted.take n) + s.accepted[n].size := by
    rw [htake, streamSize_append]; rfl
  have hholds := h.holds
  have hfits := h.fits
  rw [hdrop] at hholds hfits
  obtain ⟨res, hread, hout, hrest⟩ :=
    hholds.read_holds_cons (h.prev_ne_head hl hlt) hfits.1
  obtain ⟨ptr, hptr, hbytes⟩ := hout.event_eq
  rw [← hout.mmap_eq] at hbytes
  rw [hnext, Ring.finish, hread, Option.bind_some, hptr]
  simp only [recordAt_eq hbytes, Option.map_some]
  refine ⟨_, rfl, rfl, rfl, h.published_le.trans (Nat.le_succ n), hlen, ?_, ?_, ?_,
    fun _ hnone => by cases hnone⟩
  · simp only [hsize]
    exact hrest
  · simp only [hsize]
    exact hfits.2
  · simp only [htake, List.map_append, h.returned_eq]
    rfl

/-- Some invariant holds after any step. -/
theorem step (h : s.Inv g m n) {e : RingEvent} (hfit : EndRecordsFit g s e)
    (hnext : (ringMachine g).next s e = some s') : ∃ m n, s'.Inv g m n := by
  cases e with
  | produce r => exact ⟨m, n, h.produce hfit hnext⟩
  | load => exact ⟨m, n, h.load hnext⟩
  | finish =>
      cases hl : s.loaded with
      | none => simp [ringMachine, hl] at hnext
      | some head =>
          rcases Nat.eq_or_lt_of_le (h.loaded head hl).1 with hcaught | hlt
          · obtain ⟨s₁, hs₁, -, -, hinv⟩ := h.finish_caught hl hcaught.symm
            rw [hnext] at hs₁
            exact ⟨n, n, Option.some.inj hs₁ ▸ hinv⟩
          · obtain ⟨s₁, hs₁, -, -, hinv⟩ := h.finish_behind hl hlt
            rw [hnext] at hs₁
            exact ⟨m, n + 1, Option.some.inj hs₁ ▸ hinv⟩

/-- A call of `read` starts by loading the head. -/
theorem load_idle (hidle : s.loaded = none) :
    ∃ s', (ringMachine g).next s .load = some s' ∧ s'.accepted = s.accepted ∧
      s'.seen = s.accepted.length ∧ s'.loaded = some s.mmap.data_head := by
  simp [ringMachine, hidle, PerfRingBuffer.read_head]

/-- Left to itself, an idle reader returns every record that is still unread. -/
theorem drain {k : ℕ} :
    ∀ {s : Ring} {m n : ℕ}, s.Inv g m n → s.loaded = none → n + k = s.accepted.length →
      ∃ fs s' m', (∀ e ∈ fs, e = .load ∨ e = .finish) ∧
        (ringMachine g).exec s fs = some s' ∧ s'.accepted = s.accepted ∧
        s'.Inv g m' s.accepted.length := by
  induction k with
  | zero =>
      intro s m n h _ hlen
      rw [Nat.add_zero] at hlen
      exact ⟨[], s, m, by simp, rfl, rfl, hlen ▸ h⟩
  | succ k ih =>
      intro s m n h hidle hlen
      -- one call of `read`: its head is beyond the position, so it returns a record
      obtain ⟨s₁, hs₁, hacc, hseen, hloaded⟩ := load_idle (g := g) hidle
      obtain ⟨s₂, hs₂, hacc₂, hidle₂, hinv₂⟩ :=
        (h.load hs₁).finish_behind hloaded (by omega)
      obtain ⟨fs, s', m', hfs, hrun, hacc', hinv'⟩ :=
        ih hinv₂ hidle₂ (by rw [hacc₂, hacc]; omega)
      refine ⟨.load :: .finish :: fs, s', m', ?_, ?_, ?_, ?_⟩
      · simpa using hfs
      · rw [Machine.exec_cons, hs₁, Option.bind_some, Machine.exec_cons, hs₂]
        exact hrun
      · rw [hacc', hacc₂, hacc]
      · rwa [hacc₂, hacc] at hinv'

/-- The same from any state: a call in progress completes first. -/
theorem drain_all (h : s.Inv g m n) :
    ∃ fs s' m', (∀ e ∈ fs, e = .load ∨ e = .finish) ∧
      (ringMachine g).exec s fs = some s' ∧ s'.accepted = s.accepted ∧
      s'.Inv g m' s.accepted.length := by
  cases hl : s.loaded with
  | none => exact h.drain hl (Nat.add_sub_cancel' h.returned_le)
  | some head =>
      obtain ⟨s₁, m₁, n₁, hs₁, hacc₁, hidle₁, hinv₁⟩ :
          ∃ s₁ m₁ n₁, (ringMachine g).next s .finish = some s₁ ∧
            s₁.accepted = s.accepted ∧ s₁.loaded = none ∧ s₁.Inv g m₁ n₁ := by
        rcases Nat.eq_or_lt_of_le (h.loaded head hl).1 with hcaught | hlt
        · obtain ⟨s₁, h₁⟩ := h.finish_caught hl hcaught.symm
          exact ⟨s₁, n, n, h₁⟩
        · obtain ⟨s₁, h₁⟩ := h.finish_behind hl hlt
          exact ⟨s₁, m, n + 1, h₁⟩
      obtain ⟨fs, s', m', hfs, hrun, hacc', hinv'⟩ :=
        hinv₁.drain hidle₁ (Nat.add_sub_cancel' hinv₁.returned_le)
      refine ⟨.finish :: fs, s', m', by simpa using hfs, ?_, hacc'.trans hacc₁, ?_⟩
      · rw [Machine.exec_cons, hs₁]
        exact hrun
      · rwa [hacc₁] at hinv'

end Ring.Inv

/-- **The ring protocol.**  Kernel and reader take steps in any order, a producer step
possibly falling inside a call of `read`.  In every state reached:

* `data_tail`, `prev_` and `data_head` are, modulo `2 ^ 64`, the ends of the first
  `m`, the first `n` and all of the accepted records, with `m ≤ n`; so `prev_` is a
  record boundary between the other two, nothing is further than the capacity from
  `data_tail`, and `data_tail` has not passed a record `read` has yet to return;
* what `read` has returned is the first `n` accepted records, byte for byte;
* a call in progress can complete: it returns the next record it has seen, or null
  if it has seen no more; and when it returns null, `data_tail` and `prev_` are the
  head it has loaded, so that the whole data area up to there is free again;
* the reader alone can go on to return every accepted record. -/
theorem ring_protocol (g : Geometry) (data : ℕ → UInt8) {es : List RingEvent} {s : Ring}
    (hfit : (ringMachine g).Along (EndRecordsFit g) (Ring.init g data) es)
    (hrun : (ringMachine g).exec (Ring.init g data) es = some s) :
    ∃ m n, m ≤ n ∧ n ≤ s.accepted.length ∧
      s.mmap.data_tail = UInt64.ofNat (streamSize (s.accepted.take m)) ∧
      s.buffer.prev_ = UInt64.ofNat (streamSize (s.accepted.take n)) ∧
      s.mmap.data_head = UInt64.ofNat (streamSize s.accepted) ∧
      s.buffer.prev_ - s.mmap.data_tail ≤ s.mmap.data_head - s.mmap.data_tail ∧
      (s.mmap.data_head - s.mmap.data_tail).toNat ≤ g.capacity ∧
      s.returned = (s.accepted.take n).map Record.bytes ∧
      (∀ head, s.loaded = some head → ∃ s', (ringMachine g).next s .finish = some s' ∧
        s'.accepted = s.accepted ∧
        s'.returned = (s.accepted.take (min (n + 1) s.seen)).map Record.bytes ∧
        (s'.returned = s.returned → s'.mmap.data_tail = head ∧ s'.buffer.prev_ = head)) ∧
      ∃ fs s', (∀ e ∈ fs, e = .load ∨ e = .finish) ∧
        (ringMachine g).exec s fs = some s' ∧
        s'.accepted = s.accepted ∧ s'.returned = s.accepted.map Record.bytes := by
  obtain ⟨m, n, h⟩ : ∃ m n, s.Inv g m n :=
    (ringMachine g).exec_invariant (I := fun s => ∃ m n, s.Inv g m n)
      (fun _ _ _ ⟨_, _, hinv⟩ hq hnext => hinv.step hq hnext)
      ⟨0, 0, Ring.Inv.init g data⟩ hfit hrun
  have hsum := Ring.Inv.streamSize_take_add_drop s n
  have hholds := h.holds
  have htail := hholds.tail_le
  have hwithin := hholds.within
  have hcap := RingHolds.capacity_lt g
  have hhead := hholds.head_eq
  rw [hsum] at hhead
  have hused : (s.mmap.data_head - s.mmap.data_tail).toNat
      = streamSize s.accepted - streamSize (s.accepted.take m) := by
    rw [hhead, hholds.tail_eq, toNat_ofNat_sub (by omega) (by omega)]
  have hread : (s.buffer.prev_ - s.mmap.data_tail).toNat
      = streamSize (s.accepted.take n) - streamSize (s.accepted.take m) := by
    rw [hholds.prev_eq, hholds.tail_eq, toNat_ofNat_sub (by omega) (by omega)]
  refine ⟨m, n, h.published_le, h.returned_le, hholds.tail_eq, hholds.prev_eq, hhead, ?_,
    by omega, h.returned_eq, fun head hl => ?_, ?_⟩
  · rw [UInt64.le_iff_toNat_le]
    omega
  · rcases Nat.eq_or_lt_of_le (h.loaded head hl).1 with hcaught | hlt
    · obtain ⟨s', hs', hacc, -, hinv⟩ := h.finish_caught hl hcaught.symm
      have hseen : head = UInt64.ofNat (streamSize (s'.accepted.take n)) := by
        rw [hacc, hcaught]
        exact (h.loaded head hl).2.2
      refine ⟨s', hs', hacc, ?_, fun _ => ?_⟩
      · rw [hinv.returned_eq, hacc, Nat.min_eq_right (by omega), hcaught]
      · exact ⟨hinv.holds.tail_eq.trans hseen.symm, hinv.holds.prev_eq.trans hseen.symm⟩
    · obtain ⟨s', hs', hacc, -, hinv⟩ := h.finish_behind hl hlt
      refine ⟨s', hs', hacc, ?_, fun hnull => ?_⟩
      · rw [hinv.returned_eq, hacc, Nat.min_eq_left hlt]
      · -- one more record has been returned
        have hlen := congrArg List.length hnull
        have hle := hinv.returned_le
        rw [hinv.returned_eq, h.returned_eq, List.length_map, List.length_map,
          List.length_take_of_le hle, List.length_take_of_le h.returned_le] at hlen
        omega
  · obtain ⟨fs, s', m', hfs, hrun', hacc, hinv⟩ := h.drain_all
    refine ⟨fs, s', hfs, hrun', hacc, ?_⟩
    rw [hinv.returned_eq, hacc, List.take_length]

set_option maxRecDepth 10000 in
/-- Two samples, the second written while `read` is on its way to the first. -/
theorem ring_protocol_two_samples :
    let e₁ : SamplingEvent := ⟨0, 0x401000, 0x7ffe0010, 0x2⟩
    let e₂ : SamplingEvent := ⟨0, 0x401004, 0x7ffe0018, 0x4⟩
    let es : List RingEvent := [.produce e₁.record, .load, .produce e₂.record, .finish,
      .load, .finish, .load, .finish]
    ∃ s, (ringMachine .x86).exec (Ring.init .x86 fun _ => 0) es = some s ∧
      s.returned = [e₁.bytes, e₂.bytes] ∧
      ∃ m n, m ≤ n ∧ n ≤ s.accepted.length ∧
        s.buffer.prev_ = UInt64.ofNat (streamSize (s.accepted.take n)) := by
  intro e₁ e₂ es
  have hfit : (ringMachine .x86).Along (EndRecordsFit .x86) (Ring.init .x86 fun _ => 0) es := by
    refine Machine.along_of_forall_mem _ fun e he s => ?_
    simp only [es, List.mem_cons, List.not_mem_nil, or_false] at he
    rcases he with rfl | rfl | rfl | rfl | rfl | rfl | rfl | rfl
    any_goals trivial
    · exact fun _ _ => e₁.size_record_le
    · exact fun _ _ => e₂.size_record_le
  have hret : ((ringMachine .x86).exec (Ring.init .x86 fun _ => 0) es).map Ring.returned
      = some [e₁.bytes, e₂.bytes] := by decide +kernel
  obtain ⟨s, hrun, hs⟩ := Option.map_eq_some_iff.mp hret
  obtain ⟨m, n, hmn, hn, -, hprev, -⟩ := ring_protocol .x86 _ hfit hrun
  exact ⟨s, hrun, hs, m, n, hmn, hn, hprev⟩

end AccessSampling
