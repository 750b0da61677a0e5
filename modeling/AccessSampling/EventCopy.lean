import AccessSampling.RingProtocol

/-!
# Writes past `event_copy_`

`event_copy_` has room for `PERF_SAMPLE_MAX_SIZE` bytes, and `read` copies a record
there without looking at its length.  The samples the plugin asks for are 32 bytes
long, but its attributes also set `mmap`, and a `PERF_RECORD_MMAP` carries a file
name: it is as long as that name.  When such a record reaches the end of the data
area, `read` writes past the array, into the member `PAGE_SIZE` behind it.

A call stays inside `event_copy_` exactly when the record at its position, if it
reaches the end of the data area, is at most `PERF_SAMPLE_MAX_SIZE` bytes long
(`copies_inside_iff`).  `event_copy_safe_iff` lifts that to runs from any reader
position, where it also says when `PAGE_SIZE` survives; `overflow_at_end` is the
other direction for one record, from any state of a ring that has caught up.

This is why every result about a ring that is read in any order and for ever has a
condition on the records that reach the end of the data area: `EndRecordsFit` and
`PublishFits` where all records are produced, and samples only in `PerfSampling`.
-/

namespace AccessSampling

open Foundation

/-! ## One call -/

/-- The copies stay inside `event_copy_`. -/
def CopiesInside (cs : List Memcpy) : Prop :=
  ∀ c ∈ cs, c.dst + c.nbytes ≤ PERF_SAMPLE_MAX_SIZE

/-- `header.size` of the record at the reader's position, as `read` loads it. -/
def PerfRingBuffer.sizeAtPrev (g : Geometry) (m : PerfMmap) (rb : PerfRingBuffer) : Option ℕ :=
  (loadBytes (m.load g)
    (rb.PAGE_SIZE.toNat + (rb.prev_ &&& rb.mask_.toInt64.toUInt64).toNat + 6) 2).map leNat

/-- The record at the reader's position, if it reaches the end of the data area, is
at most `PERF_SAMPLE_MAX_SIZE` bytes long. -/
def RecordAtPrevFits (g : Geometry) (m : PerfMmap) (rb : PerfRingBuffer) : Prop :=
  ∀ s, rb.sizeAtPrev g m = some s → g.capacity ≤ rb.prev_.toNat % g.capacity + s →
    s ≤ PERF_SAMPLE_MAX_SIZE

theorem copiesInside_copiesAt {g : Geometry} {p s : ℕ}
    (hreach : g.capacity ≤ p % g.capacity + s) :
    CopiesInside (copiesAt g p s) ↔ s ≤ PERF_SAMPLE_MAX_SIZE := by
  have hmod := Nat.mod_lt p g.capacity_pos
  unfold copiesAt CopiesInside
  split
  case isTrue hend => simp
  case isFalse hend =>
    simp only [List.mem_cons, List.not_mem_nil, or_false, forall_eq_or_imp, forall_eq]
    omega

section Call

variable {g : Geometry} {m : PerfMmap} {rb : PerfRingBuffer} {t p : ℕ}
variable {r : Record} {q : List Record}

theorem sizeAt_prev (h : RingHolds g m rb t p (r :: q)) : sizeAt g m p = r.size := by
  rw [sizeAt, ← window_slice (a := 6) (n := 2) (s := r.size) r.size_ge, h.stored_cons.1]
  exact r.size_eq

theorem recordAtPrevFits_iff (h : RingHolds g m rb t p (r :: q)) :
    RecordAtPrevFits g m rb ↔ EndFits g p r := by
  have hsize : rb.sizeAtPrev g m = some r.size := by
    rw [PerfRingBuffer.sizeAtPrev, h.attached.page_eq, g.toNat_page, h.attached.mask_eq,
      h.prev_eq, g.toNat_and_mask, g.toNat_ofNat_mod, load_size h.aligned, sizeAt_prev h]
  have hprev : rb.prev_.toNat % g.capacity = p % g.capacity := by
    rw [h.prev_eq, g.toNat_ofNat_mod]
  simp only [RecordAtPrevFits, EndFits, hsize, hprev, Option.some.injEq, forall_eq']

/-- The call wrote only inside `event_copy_`; the member behind it is unchanged. -/
def ReadResult.Inside (rb : PerfRingBuffer) (res : ReadResult) : Prop :=
  CopiesInside res.copies ∧ res.buffer.PAGE_SIZE = rb.PAGE_SIZE

/-- **A call that is behind stays inside `event_copy_` exactly when** the record at
its position fits.  Either way it completes. -/
theorem copies_inside_iff (h : RingHolds g m rb t p (r :: q)) {head : UInt64}
    (hne : rb.prev_ ≠ head) :
    ∃ res, rb.readFrom g head m = some res ∧
      (res.Inside rb ↔ RecordAtPrevFits g m rb) := by
  rw [recordAtPrevFits_iff h, readFrom_behind h.attached h.prev_eq h.aligned hne,
    sizeAt_prev h, EndFits]
  by_cases hreach : g.capacity ≤ p % g.capacity + r.size
  · obtain ⟨rb', hrun, -, hpage⟩ := runCopies_copiesAt (m := m) rb hreach r.size_lt
    rw [if_pos hreach, hrun]
    refine ⟨_, rfl, fun hin _ => (copiesInside_copiesAt hreach).mp hin.1, fun hfit => ?_⟩
    exact ⟨(copiesInside_copiesAt hreach).mpr (hfit hreach), (hpage (hfit hreach)).1⟩
  · rw [if_neg hreach]
    refine ⟨_, rfl, fun _ hr => absurd hr hreach, fun _ => ⟨?_, rfl⟩⟩
    simp [CopiesInside]

end Call

/-! ## Runs -/

/-- A fresh ring whose reader and kernel stand at position `pos`. -/
def Ring.initAt (g : Geometry) (data : ℕ → UInt8) (pos : UInt64) : Ring :=
  { Ring.init g data with
    mmap := ⟨pos, pos, data⟩
    buffer := { PerfRingBuffer.new g with prev_ := pos } }

/-- A step of the system writes past no array of the reader. -/
def WritesInside (g : Geometry) (s : Ring) : RingEvent → Prop
  | .finish => ∀ head res, s.loaded = some head →
      s.buffer.readFrom g head s.mmap = some res → res.Inside s.buffer
  | _ => True

/-- A call that is behind the head it loaded finds a record that fits. -/
def RecordFits (g : Geometry) (s : Ring) : RingEvent → Prop
  | .finish => ∀ head, s.loaded = some head → s.buffer.prev_ ≠ head →
      RecordAtPrevFits g s.mmap s.buffer
  | _ => True

/-- The ring holds some queue, of which a call in progress has seen a first part. -/
def Ring.Sound (g : Geometry) (s : Ring) : Prop :=
  ∃ t p q, RingHolds g s.mmap s.buffer t p q ∧ ∀ head, s.loaded = some head →
    ∃ q₁ q₂, q = q₁ ++ q₂ ∧ head = UInt64.ofNat (p + streamSize q₁)

namespace Ring.Sound

variable {g : Geometry} {s s' : Ring}

theorem initAt (g : Geometry) (data : ℕ → UInt8) {pos : UInt64} (hpos : 8 ∣ pos.toNat) :
    (Ring.initAt g data pos).Sound g := by
  refine ⟨pos.toNat, pos.toNat, [], ⟨⟨rfl, rfl⟩, ?_, ?_, ?_, le_rfl, ?_, hpos, rfl⟩,
    fun head h => by cases h⟩
  · exact UInt64.ofNat_toNat.symm
  · exact UInt64.ofNat_toNat.symm
  · exact UInt64.ofNat_toNat.symm
  · exact Nat.le_add_right _ _

/-- A call in progress that is behind has the front of the queue to read. -/
theorem behind {head : UInt64} (h : s.Sound g) (hl : s.loaded = some head)
    (hne : s.buffer.prev_ ≠ head) :
    ∃ t p r q, RingHolds g s.mmap s.buffer t p (r :: q) := by
  obtain ⟨t, p, q, hholds, hloaded⟩ := h
  obtain ⟨q₁, q₂, rfl, hhead⟩ := hloaded head hl
  cases q₁ with
  | nil => exact absurd (hholds.prev_eq.trans hhead.symm) hne
  | cons r q₁ => exact ⟨t, p, r, q₁ ++ q₂, hholds⟩

theorem writesInside_iff (h : s.Sound g) (e : RingEvent) :
    WritesInside g s e ↔ RecordFits g s e := by
  cases e with
  | produce r => exact Iff.rfl
  | load => exact Iff.rfl
  | finish =>
      refine forall_congr' fun head => ?_
      constructor
      · intro hin hl hne
        obtain ⟨t, p, r, q, hholds⟩ := h.behind hl hne
        obtain ⟨res, hres, hiff⟩ := copies_inside_iff hholds hne
        exact hiff.mp (hin res hl hres)
      · intro hfit res hl hres
        by_cases hne : s.buffer.prev_ = head
        · rw [readFrom_caught_up hne] at hres
          cases hres
          exact ⟨by simp [CopiesInside], rfl⟩
        · obtain ⟨t, p, r, q, hholds⟩ := h.behind hl hne
          obtain ⟨res', hres', hiff⟩ := copies_inside_iff hholds hne
          rw [hres'] at hres
          cases hres
          exact hiff.mpr (hfit hl hne)

/-- A step that stays inside `event_copy_` leaves the ring sound. -/
theorem step (h : s.Sound g) {e : RingEvent} (hfit : RecordFits g s e)
    (hnext : (ringMachine g).next s e = some s') : s'.Sound g := by
  obtain ⟨t, p, q, hholds, hloaded⟩ := id h
  cases e with
  | produce r =>
      simp only [ringMachine] at hnext
      split at hnext
      case h_1 mm happ =>
        cases hnext
        refine ⟨t, p, q ++ [r], hholds.append_holds happ, fun head hl => ?_⟩
        obtain ⟨q₁, q₂, rfl, hhead⟩ := hloaded head hl
        exact ⟨q₁, q₂ ++ [r], List.append_assoc _ _ _, hhead⟩
      case h_2 => cases hnext; exact h
  | load =>
      simp only [ringMachine] at hnext
      split at hnext
      case h_1 => cases hnext
      case h_2 =>
        cases hnext
        refine ⟨t, p, q, hholds, fun head hl => ⟨q, [], (List.append_nil q).symm, ?_⟩⟩
        exact (Option.some.inj hl).symm.trans hholds.head_eq
  | finish =>
      simp only [ringMachine, Option.bind_eq_some_iff] at hnext
      obtain ⟨head, hl, hnext⟩ := hnext
      rw [Ring.finish, Option.bind_eq_some_iff] at hnext
      obtain ⟨res, hres, hnext⟩ := hnext
      have hafter : ∃ t p q, RingHolds g res.mmap res.buffer t p q := by
        by_cases hne : s.buffer.prev_ = head
        · obtain ⟨mm, hread, hholds'⟩ := hholds.read_holds_nil hne
          rw [hread] at hres
          cases hres
          exact ⟨_, _, _, hholds'⟩
        · obtain ⟨t, p, r, q, hfront⟩ := h.behind hl hne
          have hend := (recordAtPrevFits_iff hfront).mp (hfit head hl hne)
          obtain ⟨res', hread, -, hholds'⟩ := hfront.read_holds_cons hne hend
          rw [hread] at hres
          cases hres
          exact ⟨_, _, _, hholds'⟩
      obtain ⟨t, p, q, hholds'⟩ := hafter
      split at hnext
      · cases hnext
        exact ⟨t, p, q, hholds', fun _ hnone => by cases hnone⟩
      · rw [Option.map_eq_some_iff] at hnext
        obtain ⟨bs, -, rfl⟩ := hnext
        exact ⟨t, p, q, hholds', fun _ hnone => by cases hnone⟩

end Ring.Sound

/-- **When the reader stays inside `event_copy_`.**  From any reader position and
along any schedule, every call writes only inside the array and leaves `PAGE_SIZE`,
which then locates the data area in every state, exactly when every call that is
behind finds a record that is at most `PERF_SAMPLE_MAX_SIZE` bytes long or ends before
the end of the data area. -/
theorem event_copy_safe_iff (g : Geometry) (data : ℕ → UInt8) {pos : UInt64}
    (hpos : 8 ∣ pos.toNat) (es : List RingEvent) :
    ((ringMachine g).Along (WritesInside g) (Ring.initAt g data pos) es ∧
        (ringMachine g).Through (fun s => s.buffer.PAGE_SIZE = UInt64.ofNat g.page)
          (Ring.initAt g data pos) es) ↔
      (ringMachine g).Along (RecordFits g) (Ring.initAt g data pos) es := by
  have hsound := Ring.Sound.initAt g data hpos
  have hcongr : (ringMachine g).Along (WritesInside g) (Ring.initAt g data pos) es ↔
      (ringMachine g).Along (RecordFits g) (Ring.initAt g data pos) es :=
    (ringMachine g).along_congr (I := Ring.Sound g)
      (fun _ _ _ h hfit hnext => h.step hfit hnext) (fun _ e h => h.writesInside_iff e)
      hsound
  refine ⟨fun h => hcongr.mp h.1, fun h => ⟨hcongr.mpr h, ?_⟩⟩
  have hthrough := (ringMachine g).through_of_along
    (fun _ _ _ hs hfit hnext => Ring.Sound.step hs hfit hnext) hsound h
  refine Machine.Through.mono _ (fun s hs => ?_) hthrough
  obtain ⟨t, p, q, hholds, -⟩ := hs
  exact hholds.attached.page_eq

/-- The same for one sample that ends at the end of the data area. -/
theorem event_copy_safe_sample :
    let e : SamplingEvent := ⟨0, 0x401000, 0x7ffe0010, 0x2⟩
    let es : List RingEvent := [.produce e.record, .load, .finish]
    ((ringMachine .x86).Along (WritesInside .x86) (Ring.initAt .x86 (fun _ => 0) 262112) es ∧
        (ringMachine .x86).Through (fun s => s.buffer.PAGE_SIZE = UInt64.ofNat 4096)
          (Ring.initAt .x86 (fun _ => 0) 262112) es) ↔
      (ringMachine .x86).Along (RecordFits .x86) (Ring.initAt .x86 (fun _ => 0) 262112) es :=
  event_copy_safe_iff .x86 _ (by decide) _

/-! ## A run that overflows

Between two samples the reader catches up, so it can be brought to any multiple of
the size of a sample; a long record there crosses the end. -/

/-- The kernel has a record, and the reader reads until it has caught up. -/
def readRound (r : Record) : List RingEvent :=
  [.produce r, .load, .finish, .load, .finish]

namespace Ring

/-- The reader is idle and has returned and published everything. -/
structure Drained (g : Geometry) (s : Ring) : Prop where
  idle : s.loaded = none
  inv : s.Inv g s.accepted.length s.accepted.length

namespace Drained

variable {g : Geometry} {s : Ring}

theorem init (g : Geometry) (data : ℕ → UInt8) : (Ring.init g data).Drained g :=
  ⟨rfl, Inv.init g data⟩

/-- A drained ring has room for any record. -/
theorem append_isSome (h : s.Drained g) (r : Record) : (s.mmap.append g r).isSome := by
  have hlt := r.size_lt
  have hcap := g.capacity_ge
  rw [h.inv.holds.append_eq_some_iff, List.drop_length, streamSize_nil]
  omega

/-- The state after a drained ring has accepted a record and `read` has loaded the
new head. -/
theorem produce_load (h : s.Drained g) (r : Record) :
    ∃ m, s.mmap.append g r = some m ∧
      (ringMachine g).exec s [.produce r, .load] = some { s with
        mmap := m, accepted := s.accepted ++ [r], loaded := some m.data_head
        seen := s.accepted.length + 1 } := by
  obtain ⟨m, hm⟩ := Option.isSome_iff_exists.mp (h.append_isSome r)
  have hidle := h.idle
  refine ⟨m, hm, ?_⟩
  simp [Machine.exec_cons, ringMachine, hm, hidle, PerfRingBuffer.read_head]

/-- The ring such a state holds. -/
theorem produce_holds (h : s.Drained g) {r : Record} {m : PerfMmap}
    (hm : s.mmap.append g r = some m) :
    RingHolds g m s.buffer (streamSize s.accepted) (streamSize s.accepted) [r] := by
  have hholds := h.inv.holds
  rw [List.take_length, List.drop_length] at hholds
  exact hholds.append_holds hm

/-- One round keeps the ring drained. -/
theorem round (h : s.Drained g) {r : Record} (hr : r.size ≤ PERF_SAMPLE_MAX_SIZE) :
    ∃ s', (ringMachine g).exec s (readRound r) = some s' ∧
      s'.accepted = s.accepted ++ [r] ∧ s'.Drained g := by
  obtain ⟨m, hm⟩ := Option.isSome_iff_exists.mp (h.append_isSome r)
  have hidle := h.idle
  obtain ⟨s₁, hs₁, hacc₁, hidle₁⟩ : ∃ s₁, (ringMachine g).next s (.produce r) = some s₁ ∧
      s₁.accepted = s.accepted ++ [r] ∧ s₁.loaded = none := by
    refine ⟨{ s with mmap := m, accepted := s.accepted ++ [r] }, ?_, rfl, hidle⟩
    simp [ringMachine, hm]
  have hlen₁ : s₁.accepted.length = s.accepted.length + 1 := by simp [hacc₁]
  have hinv₁ := h.inv.produce (fun _ _ => hr) hs₁
  -- the first call finds the record
  obtain ⟨s₂, hs₂, hacc₂, hseen₂, hl₂⟩ := Inv.load_idle (g := g) hidle₁
  obtain ⟨s₃, hs₃, hacc₃, hidle₃, hinv₃⟩ :=
    (hinv₁.load hs₂).finish_behind hl₂ (by omega)
  -- the second finds nothing more and publishes
  obtain ⟨s₄, hs₄, hacc₄, hseen₄, hl₄⟩ := Inv.load_idle (g := g) hidle₃
  have hlen₃ : s₃.accepted.length = s.accepted.length + 1 := by rw [hacc₃, hacc₂, hlen₁]
  obtain ⟨s₅, hs₅, hacc₅, hidle₅, hinv₅⟩ :=
    (hinv₃.load hs₄).finish_caught hl₄ (by omega)
  have hacc : s₅.accepted = s₁.accepted := by rw [hacc₅, hacc₄, hacc₃, hacc₂]
  refine ⟨s₅, ?_, hacc.trans hacc₁, hidle₅, ?_⟩
  · simp [readRound, Machine.exec_cons, hs₁, hs₂, hs₃, hs₄, hs₅]
  · rw [hacc, hlen₁]
    exact hinv₅

theorem rounds {rs : List Record} :
    ∀ {s : Ring}, s.Drained g → (∀ r ∈ rs, r.size ≤ PERF_SAMPLE_MAX_SIZE) →
      ∃ s', (ringMachine g).exec s (rs.flatMap readRound) = some s' ∧
        s'.accepted = s.accepted ++ rs ∧ s'.Drained g := by
  induction rs with
  | nil => intro s h _; exact ⟨s, rfl, (List.append_nil _).symm, h⟩
  | cons r rs ih =>
      intro s h hrs
      obtain ⟨s₁, hrun₁, hacc₁, h₁⟩ := h.round (hrs r List.mem_cons_self)
      obtain ⟨s', hrun, hacc, h'⟩ := ih h₁ fun a ha => hrs a (List.mem_cons_of_mem r ha)
      refine ⟨s', ?_, ?_, h'⟩
      · rw [List.flatMap_cons, Machine.exec_append, hrun₁]
        exact hrun
      · rw [hacc, hacc₁, List.append_assoc]
        rfl

/-- **A long record at the end overflows.** -/
theorem overflow_at_end (h : s.Drained g) {r : Record}
    (hreach : g.capacity ≤ streamSize s.accepted % g.capacity + r.size)
    (hlong : PERF_SAMPLE_MAX_SIZE < r.size) :
    ¬ (ringMachine g).Along (WritesInside g) s [.produce r, .load, .finish] := by
  intro halong
  obtain ⟨m, hm, hrun⟩ := h.produce_load r
  have hholds := h.produce_holds hm
  have hne : s.buffer.prev_ ≠ m.data_head := by
    rw [hholds.head_eq]
    have hpos := r.size_pos
    exact mt (hholds.prev_eq_iff le_rfl).mp (streamSize_pos (by simp)).ne'
  obtain ⟨res, hres, hiff⟩ := copies_inside_iff hholds hne
  have hlast : (ringMachine g).Along (WritesInside g) _ [RingEvent.finish] :=
    Machine.Along.right _ (show (ringMachine g).Along (WritesInside g) s
      ([.produce r, .load] ++ [.finish]) from halong) hrun
  have hend := (recordAtPrevFits_iff hholds).mp (hiff.mp (hlast.1 _ res rfl hres))
  have := hend hreach
  omega

end Drained

end Ring

/-- A `PERF_RECORD_MMAP` for a mapping of a file: header, `pid`, `tid`, `addr`, `len`,
`pgoff`, and the file's name, padded with zeros to a multiple of eight. -/
def libcMmapBytes : List UInt8 :=
  leBytes 4 PERF_RECORD_MMAP ++ leBytes 2 0 ++ leBytes 2 80 ++ leBytes 4 4711 ++
    leBytes 4 4711 ++ leBytes 8 0x7f0000000000 ++ leBytes 8 0x1000 ++ leBytes 8 0 ++
    ("/usr/lib/x86_64-linux-gnu/libc.so.6".toList.map fun c => UInt8.ofNat c.toNat) ++
    List.replicate 5 0

/-- That record. -/
def libcMmap : Record where
  bytes := libcMmapBytes
  size_eq := by decide
  size_ge := by decide
  size_dvd := by decide

theorem size_libcMmap : libcMmap.size = 80 := by decide

set_option maxRecDepth 10000 in
/-- **A long record at the end of the data area.**  The reader has read 8191 samples
when the C library is mapped: of the 80 bytes of that record 32 are left before the end
of the data area, and 16 do not fit `event_copy_`.  A reader that is there finds part
of the library's name, `u/libc.s`, in place of `PAGE_SIZE`. -/
theorem event_copy_overflows :
    (¬ ∀ (data : ℕ → UInt8) (es : List RingEvent),
      (ringMachine .x86).Along (WritesInside .x86) (Ring.init .x86 data) es) ∧
    ((ringMachine .x86).exec (Ring.initAt .x86 (fun _ => 0) 262112)
      [.produce libcMmap]).bind (fun s =>
        (s.buffer.read .x86 s.mmap).map fun res => res.buffer.PAGE_SIZE)
      = some 0x732e6362696c2f75 := by
  refine ⟨fun hsafe => ?_, by decide +kernel⟩
  let e : SamplingEvent := ⟨0, 0x401000, 0x7ffe0010, 0x2⟩
  obtain ⟨s, hrun, hacc, hs⟩ := (Ring.Drained.init .x86 fun _ => 0).rounds
    (show ∀ r ∈ List.replicate 8191 e.record, r.size ≤ PERF_SAMPLE_MAX_SIZE from
      fun r hr => List.eq_of_mem_replicate hr ▸ e.size_record_le)
  have hsize : streamSize s.accepted = 262112 := by
    rw [hacc, streamSize_append, streamSize_replicate, SamplingEvent.size_record]
    rfl
  have hlast : (ringMachine .x86).Along (WritesInside .x86) s
      [.produce libcMmap, .load, .finish] := Machine.Along.right _ (hsafe _ (_ ++ _)) hrun
  refine hs.overflow_at_end ?_ ?_ hlast
  · rw [hsize, size_libcMmap]
    decide
  · rw [size_libcMmap]
    decide

end AccessSampling
