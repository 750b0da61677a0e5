import AccessSampling.Foundation.Word

/-!
# Perf records

The kernel hands the plugin a stream of variable-length records.  Each starts
with a `perf_event_header`

    struct perf_event_header { u32 type; u16 misc; u16 size; };

and is a multiple of eight bytes long; `size` is the length of the whole record.
`Record` carries those facts as fields, so a malformed record cannot be built.

For the attributes the plugin opens its events with, a `PERF_RECORD_SAMPLE` is
laid out as `struct SamplingEvent`: the header followed by `ip`, `addr` and
`data_src`.  `SamplingEvent.record` is that layout; `field_ip`, `field_addr` and
`field_data_src` say that the fields are read back from it.

Numbers are little-endian, as on the machines the plugin runs on.

### Samples, and other records

The plugin is only interested in samples, but they are not all it is sent.  Its
attributes set `mmap` as well, so the kernel reports what the process maps, in a
`PERF_RECORD_MMAP` as long as the name of the file makes it; and records of lost and of
throttled samples come unasked.  A `Record` therefore has any type, and any length its
header can say.  What is proved about `read`, and about `process_events` on one thread,
is proved about all of them (`RingProtocol`, `EventCopy`, `SharedRing`, `Batches`); the
runs in which threads, signals and handlers come together have samples only
(`PerfSampling`).
-/

namespace AccessSampling

open Foundation

/-! ### Record types -/

def PERF_RECORD_MMAP : ℕ := 1
def PERF_RECORD_SAMPLE : ℕ := 9

/-- The room `PerfRingBuffer` has for a record it cannot hand out in place. -/
def PERF_SAMPLE_MAX_SIZE : ℕ := 64

/-! ### Headers and records -/

/-- `header.type` of a record's bytes. -/
def headerType (bs : List UInt8) : ℕ := leNat ((bs.drop 0).take 4)

/-- `header.size` of a record's bytes. -/
def headerSize (bs : List UInt8) : ℕ := leNat ((bs.drop 6).take 2)

/-- A record: its bytes, which announce their own length, hold at least a header
and are a multiple of eight many. -/
structure Record where
  bytes : List UInt8
  size_eq : headerSize bytes = bytes.length
  size_ge : 8 ≤ bytes.length
  size_dvd : 8 ∣ bytes.length

namespace Record

/-- `header.size`. -/
def size (r : Record) : ℕ := r.bytes.length

/-- `header.type`. -/
def type (r : Record) : ℕ := headerType r.bytes

theorem size_pos (r : Record) : 0 < r.size := Nat.lt_of_lt_of_le (by decide) r.size_ge

/-- A record is shorter than what sixteen bits can say. -/
theorem size_lt (r : Record) : r.size < 2 ^ 16 := by
  have hlen : ((r.bytes.drop 6).take 2).length = 2 := by
    have := r.size_ge
    rw [List.length_take, List.length_drop]
    omega
  have hlt := leNat_lt ((r.bytes.drop 6).take 2)
  rw [hlen] at hlt
  have hsize : leNat ((r.bytes.drop 6).take 2) = r.size := r.size_eq
  omega

end Record

/-- The bytes of a sequence of records. -/
def streamBytes (rs : List Record) : List UInt8 := rs.flatMap Record.bytes

/-- The number of bytes of a sequence of records. -/
def streamSize (rs : List Record) : ℕ := (rs.map Record.size).sum

@[simp] theorem streamBytes_nil : streamBytes [] = [] := rfl

@[simp] theorem streamBytes_cons (r : Record) (rs : List Record) :
    streamBytes (r :: rs) = r.bytes ++ streamBytes rs := rfl

@[simp] theorem streamBytes_append (rs ss : List Record) :
    streamBytes (rs ++ ss) = streamBytes rs ++ streamBytes ss :=
  List.flatMap_append

@[simp] theorem streamSize_nil : streamSize [] = 0 := rfl

@[simp] theorem streamSize_cons (r : Record) (rs : List Record) :
    streamSize (r :: rs) = r.size + streamSize rs := rfl

@[simp] theorem streamSize_append (rs ss : List Record) :
    streamSize (rs ++ ss) = streamSize rs + streamSize ss := by
  simp [streamSize]

theorem streamSize_replicate (n : ℕ) (r : Record) :
    streamSize (List.replicate n r) = n * r.size := by
  simp [streamSize]

theorem streamSize_pos {rs : List Record} (h : rs ≠ []) : 0 < streamSize rs := by
  cases rs with
  | nil => exact absurd rfl h
  | cons r rs => exact Nat.add_pos_left r.size_pos _

/-! ### Samples -/

/-- `struct SamplingEvent`, with the `misc` field of its header. -/
structure SamplingEvent where
  misc : UInt16
  ip : UInt64
  addr : UInt64
  data_src : UInt64
  deriving DecidableEq

/-- `data_src.mem_op`: the five low bits. -/
def memOp (data_src : UInt64) : UInt64 := data_src &&& 0x1f

/-- `data_src.mem_lvl`: the fourteen bits above `mem_op`. -/
def memLvl (data_src : UInt64) : UInt64 := (data_src >>> 5) &&& 0x3fff

/-- The eight-byte field at offset `off` of a record's bytes. -/
def field64 (bs : List UInt8) (off : ℕ) : UInt64 :=
  UInt64.ofNat (leNat ((bs.drop off).take 8))

/-- The bytes the kernel writes for a sample. -/
def SamplingEvent.bytes (e : SamplingEvent) : List UInt8 :=
  leBytes 4 PERF_RECORD_SAMPLE ++ (leBytes 2 e.misc.toNat ++ (leBytes 2 32 ++
    (leBytes 8 e.ip.toNat ++ (leBytes 8 e.addr.toNat ++ leBytes 8 e.data_src.toNat))))

namespace SamplingEvent

theorem length_bytes (e : SamplingEvent) : e.bytes.length = 32 := by
  simp [bytes]

theorem headerType_bytes (e : SamplingEvent) :
    headerType e.bytes = PERF_RECORD_SAMPLE := by
  have hslice : (e.bytes.drop 0).take 4 = leBytes 4 PERF_RECORD_SAMPLE :=
    slice_append [] _ rfl (length_leBytes 4 _)
  rw [headerType, hslice, leNat_leBytes]
  rfl

theorem headerSize_bytes (e : SamplingEvent) : headerSize e.bytes = 32 := by
  rw [headerSize, bytes, ← List.append_assoc,
    slice_append _ _ (by simp) (length_leBytes 2 _), leNat_leBytes]
  rfl

/-- An eight-byte field is read back from where it was written. -/
private theorem field64_slice {pre post : List UInt8} {off : ℕ} (x : UInt64)
    (hpre : pre.length = off) :
    field64 (pre ++ (leBytes 8 x.toNat ++ post)) off = x := by
  have hlt : x.toNat < 256 ^ 8 := x.toNat_lt
  rw [field64, slice_append pre post hpre (length_leBytes 8 _), leNat_leBytes,
    Nat.mod_eq_of_lt hlt, UInt64.ofNat_toNat]

theorem field_ip (e : SamplingEvent) : field64 e.bytes 8 = e.ip := by
  rw [bytes, ← List.append_assoc, ← List.append_assoc]
  exact field64_slice e.ip (by simp)

theorem field_addr (e : SamplingEvent) : field64 e.bytes 16 = e.addr := by
  rw [bytes, ← List.append_assoc, ← List.append_assoc, ← List.append_assoc]
  exact field64_slice e.addr (by simp)

theorem field_data_src (e : SamplingEvent) : field64 e.bytes 24 = e.data_src := by
  rw [bytes, ← List.append_nil (leBytes 8 e.data_src.toNat), ← List.append_assoc,
    ← List.append_assoc, ← List.append_assoc, ← List.append_assoc]
  exact field64_slice e.data_src (by simp)

/-- A sample as a record. -/
def record (e : SamplingEvent) : Record where
  bytes := e.bytes
  size_eq := e.headerSize_bytes.trans e.length_bytes.symm
  size_ge := by rw [e.length_bytes]; decide
  size_dvd := by rw [e.length_bytes]; decide

@[simp] theorem size_record (e : SamplingEvent) : e.record.size = 32 := e.length_bytes

/-- A sample fits `event_copy_`. -/
theorem size_record_le (e : SamplingEvent) : e.record.size ≤ PERF_SAMPLE_MAX_SIZE := by
  rw [size_record]
  decide

@[simp] theorem type_record (e : SamplingEvent) : e.record.type = PERF_RECORD_SAMPLE :=
  e.headerType_bytes

end SamplingEvent

end AccessSampling
