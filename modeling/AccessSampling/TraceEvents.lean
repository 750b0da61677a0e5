import AccessSampling.RingProtocol

/-!
# Access events

`process_events` turns the samples among the records of a ring into
`AccessEvent`s.  Their types, and the functions that decode `data_src` and name
an access type, belong to the trace library, which the plugin only calls:
`TraceEvents` is what it uses of it.

* `accessAt` — the body of the `switch` on `header.type`, loading its operands
  through the pointer `read` has returned.
* `Record.access` — the same as a function of the record.
* `accessAt_eq` — they agree on a record that is laid out as its type says.

An `Access` is an `AccessEvent` without the time it was read at.
-/

namespace AccessSampling

open Foundation

/-- What the plugin uses of the trace library. -/
structure TraceEvents where
  AccessType : Type
  MemoryLevel : Type
  decEq : DecidableEq AccessType
  accessTypeFromPerf : UInt64 → AccessType
  memoryLevelFromPerf : UInt64 → MemoryLevel
  accessTypeFromString : List Char → AccessType

attribute [instance] TraceEvents.decEq

/-! ### The encodings of perf -/

inductive AccessType where
  | LOAD
  | STORE
  | NA
  deriving DecidableEq

inductive MemoryLevel where
  | MEM_LVL_L1
  | MEM_LVL_L2
  | MEM_LVL_L3
  | MEM_LVL_LOC_RAM
  | NA

/-- A trace library that reads `mem_op` and `mem_lvl` as perf writes them, one bit for
each operation and level, and knows the two events by their names in any case. -/
def TraceEvents.perf : TraceEvents where
  AccessType := AccessSampling.AccessType
  MemoryLevel := AccessSampling.MemoryLevel
  decEq := inferInstance
  accessTypeFromPerf op :=
    if op &&& 0x2 ≠ 0 then .LOAD else if op &&& 0x4 ≠ 0 then .STORE else .NA
  memoryLevelFromPerf lvl :=
    if lvl &&& 0x8 ≠ 0 then .MEM_LVL_L1 else if lvl &&& 0x20 ≠ 0 then .MEM_LVL_L2
    else if lvl &&& 0x40 ≠ 0 then .MEM_LVL_L3
    else if lvl &&& 0x80 ≠ 0 then .MEM_LVL_LOC_RAM else .NA
  accessTypeFromString name :=
    if name.map Char.toLower = "load".toList then .LOAD
    else if name.map Char.toLower = "store".toList then .STORE else .NA

/-- What a sample says about one access. -/
structure Access (T : TraceEvents) where
  address : UInt64
  ip : UInt64
  access_type : T.AccessType
  memory_level : T.MemoryLevel

/-- An entry of the trace. -/
structure AccessEvent (T : TraceEvents) extends Access T where
  time : UInt64

/-- A 64-bit operand. -/
def load64 (load : ℕ → Option UInt8) (off : ℕ) : Option UInt64 :=
  (loadBytes load off 8).map fun bs => UInt64.ofNat (leNat bs)

/-- What `process_events` makes of the record behind a pointer, at time `now`: an
event of a sample with an address, and nothing of any other record.  `none` is an
access outside the memory behind the pointer. -/
def accessAt (T : TraceEvents) (now : UInt64) (load : ℕ → Option UInt8) :
    Option (Option (AccessEvent T)) :=
  (loadBytes load 0 4).bind fun typeBytes =>
    if leNat typeBytes = PERF_RECORD_SAMPLE then
      (load64 load 16).bind fun addr =>
        if addr ≠ 0 then
          (load64 load 8).bind fun ip =>
            (load64 load 24).map fun data_src =>
              some { time := now, address := addr, ip := ip
                     access_type := T.accessTypeFromPerf (memOp data_src)
                     memory_level := T.memoryLevelFromPerf (memLvl data_src) }
        else some none
    else
      -- throttling, and whatever else the kernel reports, is at most printed
      some none

section Record

variable (T : TraceEvents)

/-- The access a record is about, if it is a sample with an address. -/
def Record.access (r : Record) : Option (Access T) :=
  if r.type = PERF_RECORD_SAMPLE ∧ field64 r.bytes 16 ≠ 0 then
    some { address := field64 r.bytes 16, ip := field64 r.bytes 8
           access_type := T.accessTypeFromPerf (memOp (field64 r.bytes 24))
           memory_level := T.memoryLevelFromPerf (memLvl (field64 r.bytes 24)) }
  else none

/-- A sample has the fields of `struct SamplingEvent`. -/
def Record.LaidOut (r : Record) : Prop := r.type = PERF_RECORD_SAMPLE → 32 ≤ r.size

variable {T}

/-- An access, read at time `now`. -/
def Access.at (a : Access T) (now : UInt64) : AccessEvent T := { a with time := now }

@[simp] theorem toAccess_at (a : Access T) (now : UInt64) : (a.at now).toAccess = a := rfl

theorem load64_eq {load : ℕ → Option UInt8} {r : Record} {off : ℕ}
    (hload : ∀ i < r.bytes.length, load i = r.bytes[i]?) (hoff : off + 8 ≤ r.size) :
    load64 load off = some (field64 r.bytes off) := by
  rw [load64, loadBytes_slice hload hoff]
  rfl

/-- **What `process_events` makes of a record.** -/
theorem accessAt_eq {load : ℕ → Option UInt8} {r : Record} (now : UInt64)
    (hload : ∀ i < r.bytes.length, load i = r.bytes[i]?) (hlaid : r.LaidOut) :
    accessAt T now load = some ((r.access T).map fun a => a.at now) := by
  have hge := r.size_ge
  have htype : (loadBytes load 0 4).map leNat = some r.type := by
    have hfit : 0 + 4 ≤ r.bytes.length := by omega
    rw [loadBytes_slice hload hfit]
    rfl
  obtain ⟨bs, hbs, htype⟩ := Option.map_eq_some_iff.mp htype
  rw [accessAt, hbs, Option.bind_some, htype, Record.access]
  by_cases hsample : r.type = PERF_RECORD_SAMPLE
  · have h32 := hlaid hsample
    have h16 : 16 + 8 ≤ r.size := by omega
    have h8 : 8 + 8 ≤ r.size := by omega
    rw [if_pos hsample, load64_eq hload h16, Option.bind_some, load64_eq hload h8,
      load64_eq hload h32]
    by_cases haddr : field64 r.bytes 16 = 0
    · simp [haddr]
    · rw [if_pos haddr, if_pos ⟨hsample, haddr⟩]
      rfl
  · rw [if_neg hsample, if_neg fun h => hsample h.1]
    rfl

theorem SamplingEvent.laidOut_record (e : SamplingEvent) : e.record.LaidOut :=
  fun _ => e.size_record.ge

/-- The access a sample is about. -/
theorem SamplingEvent.access_record (e : SamplingEvent) :
    e.record.access T = if e.addr ≠ 0 then
      some { address := e.addr, ip := e.ip
             access_type := T.accessTypeFromPerf (memOp e.data_src)
             memory_level := T.memoryLevelFromPerf (memLvl e.data_src) } else none := by
  have haddr : field64 e.record.bytes 16 = e.addr := e.field_addr
  have hip : field64 e.record.bytes 8 = e.ip := e.field_ip
  have hsrc : field64 e.record.bytes 24 = e.data_src := e.field_data_src
  rw [Record.access, e.type_record, haddr, hip, hsrc]
  simp

end Record

end AccessSampling
