import AccessSampling.PerfRecord
import AccessSampling.Foundation.Circular

/-!
# `PerfRingBuffer`

One perf event shares a memory mapping with the kernel: a metadata page holding
`data_head` and `data_tail`, and a data area of `BUFFERSIZE_DEFAULT` pages that
the kernel fills with records.  `PerfRingBuffer` is the reader's side of it:
`mask_`, the position `prev_` it has read up to, and `event_copy_`, where a
record that reaches the end of the data area is assembled.

The definitions follow the source in its own integer types: `prev_` and
`data_head` are `uint64_t`, `mask_` is an `int`, the copying loop counts in
`unsigned int`.

* `readFrom head` is the body of `read` once `read_head` has returned `head`;
  the kernel may append between the two, which is why they are separate.
* A pointer into the data area is a byte offset from `base_`; a load outside the
  data area is `none`.
* `event_copy_` is followed in memory by the member `PAGE_SIZE`, so `store`
  spills into it when a copy is too long.
-/

namespace AccessSampling

open Foundation

/-! ### The mapping -/

/-- `PerfRingBuffer::BUFFERSIZE_DEFAULT`. -/
def BUFFERSIZE_DEFAULT : ℕ := 64

/-- The page size of the machine and the size of a data area, which is a power of
two above the sixteen-bit limit on records.  `mask_ + 1` is computed in `int`, so
the capacity is one that an `int` can hold. -/
structure Geometry where
  page : ℕ
  order : ℕ
  capacity_eq : BUFFERSIZE_DEFAULT * page = 2 ^ order
  order_ge : 16 ≤ order
  order_le : order ≤ 30

/-- The size of the data area. -/
def Geometry.capacity (g : Geometry) : ℕ := 2 ^ g.order

/-- Pages of 4096 bytes, as on the machines whose events the plugin samples. -/
def Geometry.x86 : Geometry where
  page := 4096
  order := 18
  capacity_eq := by decide
  order_ge := by decide
  order_le := by decide

/-- The part of `perf_event_mmap_page` the plugin uses, and the data area after
it, indexed from its first byte. -/
structure PerfMmap where
  data_head : UInt64
  data_tail : UInt64
  data : ℕ → UInt8

/-- The byte at an offset from `base_`, if that offset is in the data area. -/
def PerfMmap.load (g : Geometry) (m : PerfMmap) (addr : ℕ) : Option UInt8 :=
  if g.page ≤ addr ∧ addr < g.page + g.capacity then some (m.data (addr - g.page))
  else none

/-! ### The reader -/

structure PerfRingBuffer where
  mask_ : Int32
  prev_ : UInt64
  event_copy_ : Fin PERF_SAMPLE_MAX_SIZE → UInt8
  PAGE_SIZE : UInt64

namespace PerfRingBuffer

/-- The constructor, for a machine of page size `g.page`. -/
def new (g : Geometry) : PerfRingBuffer where
  mask_ := (UInt64.ofNat BUFFERSIZE_DEFAULT * UInt64.ofNat g.page - 1).toUInt32.toInt32
  prev_ := 0
  event_copy_ := fun _ => 0
  PAGE_SIZE := UInt64.ofNat g.page

/-- The bytes of the object from `event_copy_` on: the array, then the eight bytes
of `PAGE_SIZE`. -/
def cell (rb : PerfRingBuffer) (i : ℕ) : UInt8 :=
  if h : i < PERF_SAMPLE_MAX_SIZE then rb.event_copy_ ⟨i, h⟩
  else ((leBytes 8 rb.PAGE_SIZE.toNat)[i - PERF_SAMPLE_MAX_SIZE]?).getD 0

/-- `bs` laid over memory at offset `dst`. -/
def overlay (mem : ℕ → UInt8) (dst : ℕ) (bs : List UInt8) (i : ℕ) : UInt8 :=
  if dst ≤ i then (bs[i - dst]?).getD (mem i) else mem i

/-- Write `bs` at `event_copy_ + dst`.  What does not fit in the array lands in
`PAGE_SIZE`; what lies beyond is outside the object. -/
def store (rb : PerfRingBuffer) (dst : ℕ) (bs : List UInt8) : PerfRingBuffer where
  mask_ := rb.mask_
  prev_ := rb.prev_
  event_copy_ := fun i => overlay rb.cell dst bs i
  PAGE_SIZE :=
    if dst + bs.length ≤ PERF_SAMPLE_MAX_SIZE then rb.PAGE_SIZE
    else UInt64.ofNat (leNat ((List.range 8).map fun i =>
      overlay rb.cell dst bs (PERF_SAMPLE_MAX_SIZE + i)))

end PerfRingBuffer

/-! ### The copying loop -/

/-- One `memcpy` of the loop: `nbytes` bytes from `data[src]` on to
`event_copy_ + dst`. -/
structure Memcpy where
  dst : ℕ
  src : ℕ
  nbytes : ℕ
  deriving DecidableEq

/-- The `do … while (len)` loop of `read`, as the copies it makes, in order.
`none` when `fuel` rounds are not enough. -/
def copyLoop (mask_ : Int32) : ℕ → (offset len : UInt32) → (dst : ℕ) → Option (List Memcpy)
  | 0, _, _, _ => none
  | fuel + 1, offset, len, dst =>
      let src := offset &&& mask_.toUInt32
      let nbytes_to_copy :=
        (min ((mask_ + 1).toUInt32 - src).toUInt64 len.toUInt64).toUInt32
      let copy : Memcpy := ⟨dst, src.toNat, nbytes_to_copy.toNat⟩
      let rest := len - nbytes_to_copy
      if rest = 0 then some [copy]
      else (copyLoop mask_ fuel (offset + nbytes_to_copy) rest
        (dst + nbytes_to_copy.toNat)).map (copy :: ·)

/-- Carry out the copies of the loop, the data area starting at `data`. -/
def runCopies (load : ℕ → Option UInt8) (data : ℕ) :
    PerfRingBuffer → List Memcpy → Option PerfRingBuffer
  | rb, [] => some rb
  | rb, c :: cs =>
      (loadBytes load (data + c.src) c.nbytes).bind fun bs =>
        runCopies load data (rb.store c.dst bs) cs

/-! ### `read` -/

/-- Where a record handed out by `read` lies: in the mapping, at an offset from
`base_`, or in `event_copy_`. -/
inductive EventPtr where
  | ring (addr : ℕ)
  | copy
  deriving DecidableEq

/-- The bytes behind a pointer. -/
def EventPtr.load (g : Geometry) (m : PerfMmap) (rb : PerfRingBuffer) :
    EventPtr → ℕ → Option UInt8
  | .ring addr, off => m.load g (addr + off)
  | .copy, off => if h : off < PERF_SAMPLE_MAX_SIZE then some (rb.event_copy_ ⟨off, h⟩) else none

/-- The outcome of one call of `read`: the pointer it returns, the copies it made,
and the two objects it leaves behind. -/
structure ReadResult where
  event : Option EventPtr
  copies : List Memcpy
  buffer : PerfRingBuffer
  mmap : PerfMmap

namespace PerfRingBuffer

def read_head (m : PerfMmap) : UInt64 := m.data_head

def write_tail (m : PerfMmap) (tail : UInt64) : PerfMmap := { m with data_tail := tail }

/-- `read`, after `read_head` has returned `head`.  `none` is an access outside the
data area. -/
def readFrom (g : Geometry) (head : UInt64) (m : PerfMmap) (rb : PerfRingBuffer) :
    Option ReadResult :=
  let old := rb.prev_
  let mask := rb.mask_.toInt64.toUInt64
  let data := rb.PAGE_SIZE.toNat
  if old ≠ head then
    let index := (old &&& mask).toNat
    (loadBytes (m.load g) (data + index + 6) 2).bind fun sizeBytes =>
      let size := UInt64.ofNat (leNat sizeBytes)
      if (old &&& mask) + size ≠ ((old + size) &&& mask) then
        (copyLoop rb.mask_ (size.toNat + 1) old.toUInt32 size.toUInt32 0).bind fun copies =>
          (runCopies (m.load g) data rb copies).map fun rb' =>
            ⟨some .copy, copies, { rb' with prev_ := old + size }, m⟩
      else
        some ⟨some (.ring (data + index)), [], { rb with prev_ := old + size }, m⟩
  else
    some ⟨none, [], rb, write_tail m old⟩

/-- `PerfRingBuffer::read`. -/
def read (g : Geometry) (m : PerfMmap) (rb : PerfRingBuffer) : Option ReadResult :=
  readFrom g (read_head m) m rb

end PerfRingBuffer

end AccessSampling
