import AccessSampling.PfmWrapper
import AccessSampling.TraceEvents
import AccessSampling.Foundation.Machine
import Mathlib.Data.List.AList
import Mathlib.Logic.Function.Basic

/-!
# `PerfSampling`

The members `ring_buffers_` and `event_data_` are `thread_local`, and a perf event
counts on the thread that has opened it.  A `Thread` is therefore those members, the
events the kernel keeps for the thread, and what the kernel knows about the
thread's `SIGPROF`: whether it is blocked, whether one is pending, and where the
handler is.

* `event_open`, `enable`, `disable`, `set_event_buffer` — what the thread's own code
  calls.  `event_open` takes an `OpenOutcome`: what the system answers to its calls.
* `processNext` — one round of the loop in `process_events`.
* `signal_handler` — the handler from its call to its return.
* `samplerMachine` — the same one step at a time, with the kernel's steps in
  between: samples, and the delivery of `SIGPROF`.

Event buffers are shared, and lie in a `Heap`.

### Which records are written into the rings

In `samplerMachine` **the kernel writes nothing but samples**, and so it is in
`processMachine`, where many threads run.  The kernel has other records for the same
rings, since the attributes set `mmap`, and `process_events` skips them.  But `read` has
to get past them first, and where one that is longer than `event_copy_` reaches the end
of the data area it overwrites `PAGE_SIZE` (`event_copy_safe_iff`): from then on the ring
is read at wrong addresses, where there may be the same record again for ever.  Nothing
that is said of all runs would survive that.

So the two questions are taken apart.  What the other records do to a ring is the
subject of `RingProtocol`, `EventCopy` and `SharedRing`; and `drain_filterMap` says that
a buffer depends on the samples only, whatever else is produced, as long as nothing
overflows `event_copy_`.  What threads, signals and handlers do to each other is asked
of samples, which are 32 bytes long and fit `event_copy_` wherever they are.

### How large a step is

`SIGPROF` may arrive between any two instructions of a thread.  Here it is delivered
between two steps of the handler or of the code it interrupts, and the other events of
the thread take their samples there.  A step of the handler is one call of `read` with
what is done about its record; that `read` can be taken in one piece, although the kernel
may be writing meanwhile, is `read_atomic`.

* **A sample for which the ring has no room** is dropped, and sends no signal: what
  arrives at the thread is the notice that there is something to read.
* **A `SIGPROF` that finds another one pending** is merged into it, as it is a standard
  signal, and its `si_fd` is lost.
* **A handler is not interrupted** by another `SIGPROF`, as its own signal is blocked while
  it runs; the events that it does not drain go on taking samples.
-/

namespace AccessSampling

open Foundation

abbrev Fd := ℤ

/-- What an `EventBufferPtr` points to, if it is not null. -/
abbrev BufferPtr := ℕ

/-! ## The kernel's side of an event -/

/-- A perf event.  `accepted` is a history; the plugin cannot see it. -/
structure PerfEvent where
  attr : PerfEventAttribute
  enabled : Bool
  /-- `O_ASYNC` is set. -/
  async : Bool
  /-- The owner is the thread that has opened it. -/
  owned : Bool
  cloexec : Bool
  /-- The signal is `SIGPROF`. -/
  sigprof : Bool
  /-- The ring, once it is mapped. -/
  mmap : Option PerfMmap
  /-- The records the kernel has accepted. -/
  accepted : List Record

namespace PerfEvent

/-- What `perf_event_open` creates. -/
def opened (attr : PerfEventAttribute) : PerfEvent where
  attr := attr
  enabled := !attr.disabled
  async := false
  owned := false
  cloexec := false
  sigprof := false
  mmap := none
  accepted := []

/-- A record of the event sends `SIGPROF` to its thread. -/
def notifies (ev : PerfEvent) : Bool := ev.async && ev.owned && ev.sigprof

/-- The kernel has a record for the ring; `none` when it is dropped. -/
def produce (g : Geometry) (ev : PerfEvent) (r : Record) : Option PerfEvent :=
  ev.mmap.bind fun m => (m.append g r).map fun m' =>
    { ev with mmap := some m', accepted := ev.accepted ++ [r] }

end PerfEvent

/-! ## Threads -/

/-- Where a running `signal_handler` is. -/
inductive Phase where
  /-- Before `disable (info->si_fd)`. -/
  | entered
  /-- In the loop of `process_events`. -/
  | draining
  /-- Before `enable (info->si_fd)`. -/
  | drained
  /-- Before it returns. -/
  | enabled
  deriving DecidableEq

structure Thread where
  ring_buffers_ : AList fun _ : Fd => PerfRingBuffer
  event_data_ : Option BufferPtr
  events : Fd → Option PerfEvent
  /-- `SIGPROF` is in the signal mask the thread has set. -/
  blocked : Bool
  /-- The `si_fd` of the pending `SIGPROF`. -/
  pending : Option Fd
  /-- The handler that runs, with its `si_fd`. -/
  handler : Option (Fd × Phase)

namespace Thread

/-- A thread that has just started. -/
def new : Thread where
  ring_buffers_ := ∅
  event_data_ := none
  events := fun _ => none
  blocked := false
  pending := none
  handler := none

/-- Change what the kernel keeps for a descriptor. -/
def modify (th : Thread) (fd : Fd) (f : PerfEvent → PerfEvent) : Thread :=
  { th with events := fun x => if x = fd then (th.events x).map f else th.events x }

section Modify

variable (th : Thread) (fd : Fd) (f : PerfEvent → PerfEvent)

@[simp] theorem modify_ring_buffers_ : (th.modify fd f).ring_buffers_ = th.ring_buffers_ := rfl

@[simp] theorem modify_event_data_ : (th.modify fd f).event_data_ = th.event_data_ := rfl

@[simp] theorem modify_blocked : (th.modify fd f).blocked = th.blocked := rfl

@[simp] theorem modify_pending : (th.modify fd f).pending = th.pending := rfl

@[simp] theorem modify_handler : (th.modify fd f).handler = th.handler := rfl

@[simp] theorem events_modify_self :
    (th.modify fd f).events fd = (th.events fd).map f := if_pos rfl

variable {th fd} in
theorem events_modify_of_eq {ev : PerfEvent} (h : th.events fd = some ev) :
    (th.modify fd f).events fd = some (f ev) := by
  rw [events_modify_self, h]
  rfl

theorem events_modify_ne {x : Fd} (h : x ≠ fd) :
    (th.modify fd f).events x = th.events x := if_neg h

end Modify

/-- `PerfSampling::set_event_buffer`. -/
def set_event_buffer (th : Thread) (event_buffer : Option BufferPtr) : Thread :=
  { th with event_data_ := event_buffer }

/-- `PerfSampling::enable (int fd)`: the `ioctl` fails, without effect, on what is not
a perf event. -/
def enable_fd (th : Thread) (fd : Fd) : Thread :=
  th.modify fd fun ev => { ev with enabled := true }

/-- `PerfSampling::disable (int fd)`. -/
def disable_fd (th : Thread) (fd : Fd) : Thread :=
  th.modify fd fun ev => { ev with enabled := false }

/-- `PerfSampling::enable ()`. -/
def enable (th : Thread) : Thread := th.ring_buffers_.keys.foldl enable_fd th

/-- `PerfSampling::disable ()`: block `SIGPROF` in the calling thread. -/
def disable (th : Thread) : Thread := { th with blocked := true }

/-- The loop of `enable ()` changes nothing but the events. -/
theorem foldl_enable_fd (th : Thread) (fds : List Fd) :
    fds.foldl enable_fd th = { th with events := (fds.foldl enable_fd th).events } := by
  induction fds generalizing th with
  | nil => rfl
  | cons fd fds ih =>
      rw [List.foldl_cons, ih]
      rfl

/-- It enables every event whose descriptor it meets. -/
theorem events_foldl_enable_fd (th : Thread) (fds : List Fd) (x : Fd) :
    (fds.foldl enable_fd th).events x =
      if x ∈ fds then (th.events x).map fun ev => { ev with enabled := true }
      else th.events x := by
  induction fds generalizing th with
  | nil => simp
  | cons fd fds ih =>
      rw [List.foldl_cons, ih]
      by_cases hx : x = fd
      · subst hx
        rw [enable_fd, events_modify_self]
        cases th.events x with
        | none => simp
        | some ev => simp
      · rw [enable_fd, events_modify_ne _ _ _ hx]
        simp [hx]

theorem enable_eq (th : Thread) : th.enable = { th with events := th.enable.events } :=
  th.foldl_enable_fd _

/-- **`enable ()` enables every event that has a ring.** -/
theorem events_enable (th : Thread) (x : Fd) :
    th.enable.events x =
      if x ∈ th.ring_buffers_ then (th.events x).map fun ev => { ev with enabled := true }
      else th.events x := by
  rw [enable, events_foldl_enable_fd]
  exact if_congr AList.mem_keys.symm rfl rfl

end Thread

/-! ## Opening an event -/

/-- What the system answers to the calls `event_open` makes, in their order; `false`
is failure. -/
structure OpenOutcome where
  /-- `perf_event_open` -/
  fd : Fd
  /-- `mmap` in the constructor of `PerfRingBuffer` -/
  mmap : Bool
  /-- What the data area contains. -/
  data : ℕ → UInt8
  /-- `F_SETFL`, `F_SETOWN_EX`, `F_SETFD`, `F_SETSIG` -/
  setfl : Bool
  setown : Bool
  setfd : Bool
  setsig : Bool
  /-- `PERF_EVENT_IOC_RESET` -/
  reset : Bool

/-- Every call succeeds. -/
def OpenOutcome.success (fd : Fd) (data : ℕ → UInt8) : OpenOutcome where
  fd := fd
  mmap := true
  data := data
  setfl := true
  setown := true
  setfd := true
  setsig := true
  reset := true

namespace Thread

/-- `perf_event_open` has returned `fd`; a negative one is no descriptor. -/
def perf_event_open (th : Thread) (attr : PerfEventAttribute) (fd : Fd) : Thread :=
  if fd < 0 then th
  else { th with events := Function.update th.events fd (some (.opened attr)) }

/-- `ring_buffers_.emplace (std::make_pair (fd, fd))`, once `mmap` has succeeded. -/
def emplace (g : Geometry) (th : Thread) (fd : Fd) (data : ℕ → UInt8) : Thread :=
  { th.modify fd fun ev => { ev with mmap := some ⟨0, 0, data⟩ } with
    ring_buffers_ :=
      if fd ∈ th.ring_buffers_ then th.ring_buffers_
      else th.ring_buffers_.insert fd (PerfRingBuffer.new g) }

/-- `PerfSampling::event_open`: what it leaves by, and the thread it leaves. -/
def event_open (g : Geometry) (attr : PerfEventAttribute) (o : OpenOutcome) (th : Thread) :
    Except Exception Unit × Thread :=
  let fd := o.fd
  let th := th.perf_event_open attr fd
  if fd < 1 then (.error (.runtime_error "Error: perf_event_open failed."), th)
  else if ¬ o.mmap then
    (.error (.runtime_error "Error: Failed to allocate ring buffer."), th)
  else
    let th := th.emplace g fd o.data
    if ¬ o.setfl then
      (.error (.runtime_error
        "Error: Failed to enable the generation of signals on the fd"), th)
    else
      let th := th.modify fd fun ev => { ev with async := true }
      if ¬ o.setown then
        (.error (.runtime_error "Error: Setting the fd ownership failed."), th)
      else
        let th := th.modify fd fun ev => { ev with owned := true }
        if ¬ o.setfd then
          (.error (.runtime_error "Error: Could not set close-on-exec flag on the fd."), th)
        else
          let th := th.modify fd fun ev => { ev with cloexec := true }
          if ¬ o.setsig then
            (.error (.runtime_error "Error: Unable to create a signal on the fd."), th)
          else
            let th := th.modify fd fun ev => { ev with sigprof := true }
            if ¬ o.reset then
              (.error (.runtime_error "Error: Could not reset perf event."), th)
            else (.ok (), th)

end Thread

namespace OpenOutcome

variable (o : OpenOutcome)

/-- The ring is mapped. -/
def mapped : Bool := decide (1 ≤ o.fd) && o.mmap

/-- The event that `event_open` leaves behind a descriptor. -/
def event (attr : PerfEventAttribute) : PerfEvent where
  attr := attr
  enabled := !attr.disabled
  async := o.mapped && o.setfl
  owned := o.mapped && o.setfl && o.setown
  cloexec := o.mapped && o.setfl && o.setown && o.setfd
  sigprof := o.mapped && o.setfl && o.setown && o.setfd && o.setsig
  mmap := if o.mapped then some ⟨0, 0, o.data⟩ else none
  accepted := []

/-- No call fails. -/
def succeeds : Bool :=
  o.mapped && o.setfl && o.setown && o.setfd && o.setsig && o.reset

end OpenOutcome

namespace Thread

variable {g : Geometry} {attr : PerfEventAttribute} {o : OpenOutcome} {th : Thread}

/-- A change of an event that has just been created. -/
theorem modify_update (rings : AList fun _ : Fd => PerfRingBuffer) (event_data_ : Option BufferPtr)
    (events : Fd → Option PerfEvent) (blocked : Bool) (pending : Option Fd)
    (handler : Option (Fd × Phase)) (fd : Fd) (ev : PerfEvent) (f : PerfEvent → PerfEvent) :
    (Thread.mk rings event_data_ (Function.update events fd (some ev)) blocked pending
        handler).modify fd f
      = ⟨rings, event_data_, Function.update events fd (some (f ev)), blocked, pending,
          handler⟩ := by
  rw [modify]
  congr 1
  funext x
  by_cases hx : x = fd
  · subst hx
    simp
  · simp [hx]

/-- `event_open` without a descriptor. -/
theorem event_open_of_neg (h : o.fd < 0) :
    th.event_open g attr o
      = (.error (.runtime_error "Error: perf_event_open failed."), th) := by
  have h1 : o.fd < 1 := h.trans (by decide)
  simp only [event_open, perf_event_open, if_pos h, if_pos h1]

/-- What `event_open` leaves behind a fresh descriptor. -/
theorem event_open_of_nonneg (h : 0 ≤ o.fd) (hfresh : o.fd ∉ th.ring_buffers_) :
    (th.event_open g attr o).2 =
      { th with
        events := Function.update th.events o.fd (some (o.event attr))
        ring_buffers_ :=
          if o.mapped then th.ring_buffers_.insert o.fd (PerfRingBuffer.new g)
          else th.ring_buffers_ } := by
  have hneg : ¬ o.fd < 0 := not_lt.mpr h
  by_cases h1 : o.fd < 1
  · have hmapped : o.mapped = false := by simp [OpenOutcome.mapped, not_le.mpr h1]
    simp only [event_open, perf_event_open, if_neg hneg, if_pos h1, OpenOutcome.event,
      hmapped]
    rfl
  · have h1' : 1 ≤ o.fd := not_lt.mp h1
    simp only [event_open, perf_event_open, if_neg hneg, if_neg h1]
    split
    case isTrue hmmap =>
      have hmapped : o.mapped = false := by simpa [OpenOutcome.mapped, h1'] using hmmap
      simp only [OpenOutcome.event, hmapped]
      rfl
    case isFalse hmmap =>
      have hmapped : o.mapped = true := by simpa [OpenOutcome.mapped, h1'] using hmmap
      simp only [emplace, modify_update, if_neg hfresh, OpenOutcome.event, hmapped,
        if_true, Bool.true_and]
      cases hfl : o.setfl
      · simp [PerfEvent.opened]
      cases hown : o.setown
      · simp [PerfEvent.opened]
      cases hfd : o.setfd
      · simp [PerfEvent.opened]
      cases hsig : o.setsig
      · simp [PerfEvent.opened]
      cases hreset : o.reset
      · simp [PerfEvent.opened]
      · simp [PerfEvent.opened]

/-- **What `event_open` leaves behind.**  A descriptor that `perf_event_open` has returned
stays open, and a ring that has been mapped stays in `ring_buffers_`. -/
theorem event_open_thread (hfresh : o.fd ∉ th.ring_buffers_) :
    (th.event_open g attr o).2 =
      { th with
        events :=
          if 0 ≤ o.fd then Function.update th.events o.fd (some (o.event attr))
          else th.events
        ring_buffers_ :=
          if o.mapped then th.ring_buffers_.insert o.fd (PerfRingBuffer.new g)
          else th.ring_buffers_ } := by
  by_cases h : 0 ≤ o.fd
  · rw [event_open_of_nonneg h hfresh, if_pos h]
  · have hneg : o.fd < 0 := not_le.mp h
    have hmapped : o.mapped = false := by
      simp [OpenOutcome.mapped, not_le.mpr (hneg.trans (by decide : (0 : ℤ) < 1))]
    rw [event_open_of_neg hneg, if_neg h, hmapped]
    rfl

/-- The rings after `event_open`. -/
theorem mem_rings_event_open (hfresh : o.fd ∉ th.ring_buffers_) (x : Fd) :
    x ∈ (th.event_open g attr o).2.ring_buffers_ ↔
      x ∈ th.ring_buffers_ ∨ o.mapped = true ∧ x = o.fd := by
  rw [event_open_thread hfresh]
  by_cases hmapped : o.mapped = true
  · simp only [hmapped, if_true, AList.mem_insert]
    tauto
  · simp [hmapped]

/-- The event behind the descriptor. -/
theorem events_event_open_self (hfresh : o.fd ∉ th.ring_buffers_) (h : 0 ≤ o.fd) :
    (th.event_open g attr o).2.events o.fd = some (o.event attr) := by
  rw [event_open_of_nonneg h hfresh]
  exact Function.update_self _ _ _

/-- The other events after `event_open`. -/
theorem events_event_open_ne (hfresh : o.fd ∉ th.ring_buffers_) {x : Fd} (hx : x ≠ o.fd) :
    (th.event_open g attr o).2.events x = th.events x := by
  rw [event_open_thread hfresh]
  show (if 0 ≤ o.fd then Function.update th.events o.fd (some (o.event attr))
    else th.events) x = th.events x
  split
  case isTrue => exact Function.update_of_ne hx _ _
  case isFalse => rfl

/-- The other rings after `event_open`. -/
theorem lookup_event_open_ne (hfresh : o.fd ∉ th.ring_buffers_) {x : Fd} (hx : x ≠ o.fd) :
    (th.event_open g attr o).2.ring_buffers_.lookup x = th.ring_buffers_.lookup x := by
  rw [event_open_thread hfresh]
  show (if o.mapped then th.ring_buffers_.insert o.fd (.new g) else th.ring_buffers_).lookup x = _
  split
  case isTrue => exact AList.lookup_insert_ne hx
  case isFalse => rfl

end Thread

/-! ## Event buffers -/

/-- What has been appended to an event buffer: the event, and the descriptor whose ring
it comes from, which the buffer itself does not keep. -/
structure Entry (T : TraceEvents) where
  fd : Fd
  event : AccessEvent T

/-- The event buffers, as what has been appended to them. -/
abbrev Heap (T : TraceEvents) := BufferPtr → List (Entry T)

/-- `event_data_->append (event)`, unless `event_data_` is null. -/
def Heap.append {T : TraceEvents} (h : Heap T) (event_data_ : Option BufferPtr)
    (x : Entry T) : Heap T :=
  match event_data_ with
  | some p => Function.update h p (h p ++ [x])
  | none => h

/-! ## The handler -/

/-- A thread, and the event buffers it may append to. -/
structure Sampler (T : TraceEvents) where
  thread : Thread
  heap : Heap T

section Handler

variable {T : TraceEvents} (g : Geometry)

/-- The mapping behind a descriptor. -/
def Thread.mmapOf (th : Thread) (fd : Fd) : Option PerfMmap :=
  (th.events fd).bind fun ev => ev.mmap

/-- A call of `read` on the ring of `fd` leaves a reader and a mapping. -/
def Thread.afterRead (th : Thread) (fd : Fd) (rb : PerfRingBuffer) (m : PerfMmap) : Thread :=
  { th.modify fd fun ev => { ev with mmap := some m } with
    ring_buffers_ := th.ring_buffers_.insert fd rb }

/-- One round of the loop in `process_events`: a call of `read`, and what is done with
the record.  The flag says whether there was one. -/
def Sampler.processNext (now : UInt64) (fd : Fd) (s : Sampler T) :
    Option (Bool × Sampler T) :=
  (s.thread.ring_buffers_.lookup fd).bind fun rb =>
  (s.thread.mmapOf fd).bind fun m =>
  (rb.read g m).bind fun res =>
    let th := s.thread.afterRead fd res.buffer res.mmap
    match res.event with
    | none => some (false, ⟨th, s.heap⟩)
    | some ptr => (accessAt T now (ptr.load g res.mmap res.buffer)).map fun
        | none => (true, ⟨th, s.heap⟩)
        | some event => (true, ⟨th, s.heap.append th.event_data_ ⟨fd, event⟩⟩)

/-- `PerfSampling::process_events` on the ring of `fd`, with the number of calls of
`read` it makes; `clock i` is the time in round `i`.  `none` when `fuel` rounds are not
enough. -/
def Sampler.process_events (clock : ℕ → UInt64) (fd : Fd) :
    ℕ → ℕ → Sampler T → Option (ℕ × Sampler T)
  | 0, _, _ => none
  | fuel + 1, i, s =>
      (s.processNext g (clock i) fd).bind fun (more, s') =>
        if more then process_events clock fd fuel (i + 1) s' else some (i + 1, s')

/-- `PerfSampling::signal_handler`, with the number of calls of `read` it makes. -/
def Sampler.signal_handler (clock : ℕ → UInt64) (fuel : ℕ) (fd : Fd) (s : Sampler T) :
    Option (ℕ × Sampler T) :=
  let s : Sampler T := ⟨s.thread.disable_fd fd, s.heap⟩
  (if fd ∈ s.thread.ring_buffers_ then s.process_events g clock fd fuel 0
    else some (0, s)).map fun (n, s) => (n, ⟨s.thread.enable_fd fd, s.heap⟩)

/-! ## One thread, step by step -/

/-- What can happen next on a thread.  The only records are samples: there is no step in which
the kernel reports a mapping, or samples it has lost or throttled. -/
inductive SamplerEvent where
  /-- An event that is enabled takes a sample. -/
  | sample (fd : Fd) (e : SamplingEvent)
  /-- The thread enters the handler of the pending `SIGPROF`. -/
  | deliver
  /-- The handler takes its next step, at time `now`. -/
  | handle (now : UInt64)

/-- The kernel has a record of an event that is enabled.  The flag says whether the ring
had room for it; if not, it is dropped. -/
def Thread.produce (th : Thread) (fd : Fd) (r : Record) : Option (Bool × Thread) :=
  match th.events fd with
  | none => none
  | some ev =>
      if ev.enabled then
        match ev.produce g r with
        | none => some (false, th)
        | some ev' => some (true, th.modify fd fun _ => ev')
      else none

/-- A `SIGPROF` is merged into one that is pending. -/
def Thread.notify (th : Thread) (fd : Fd) : Thread :=
  { th with pending := th.pending.or (some fd) }

/-- The thread's event `fd` takes a sample.  A signal is sent if the ring had room for it, and if
`event_open` has come as far as to ask for signals. -/
def Thread.sample (th : Thread) (fd : Fd) (e : SamplingEvent) : Option Thread :=
  (th.produce g fd e.record).map fun (accepted, th') =>
    if accepted && (th.events fd).any PerfEvent.notifies then th'.notify fd else th'

/-- `SIGPROF` is delivered unless it is blocked, by the mask or by the handler. -/
def Thread.deliver (th : Thread) : Option Thread :=
  match th.pending, th.handler with
  | some fd, none =>
      if th.blocked then none
      else some { th with pending := none, handler := some (fd, .entered) }
  | _, _ => none

/-- The handler goes on at another point. -/
def Sampler.goto (s : Sampler T) (h : Option (Fd × Phase)) : Sampler T :=
  ⟨{ s.thread with handler := h }, s.heap⟩

/-- The next step of a handler. -/
def Sampler.handle (now : UInt64) (s : Sampler T) : Option (Sampler T) :=
  match s.thread.handler with
  | none => none
  | some (fd, .entered) =>
      some (Sampler.goto ⟨s.thread.disable_fd fd, s.heap⟩
        (some (fd, if fd ∈ s.thread.ring_buffers_ then .draining else .drained)))
  | some (fd, .draining) =>
      (s.processNext g now fd).map fun (more, s') =>
        if more then s' else s'.goto (some (fd, .drained))
  | some (fd, .drained) =>
      some (Sampler.goto ⟨s.thread.enable_fd fd, s.heap⟩ (some (fd, .enabled)))
  | some (_, .enabled) => some (s.goto none)

variable {g} in
/-- What the kernel can do with a record. -/
theorem Thread.produce_cases {th th' : Thread} {fd : Fd} {r : Record} {accepted : Bool}
    (h : th.produce g fd r = some (accepted, th')) :
    ∃ ev, th.events fd = some ev ∧ ev.enabled = true ∧
      ((accepted = false ∧ th' = th) ∨
        (accepted = true ∧ ∃ ev', ev.produce g r = some ev' ∧
          th' = th.modify fd fun _ => ev')) := by
  rw [Thread.produce] at h
  split at h
  case h_1 => cases h
  case h_2 ev hev =>
    split at h
    case isFalse => cases h
    case isTrue henabled =>
      refine ⟨ev, hev, henabled, ?_⟩
      split at h
      case h_1 => cases h; exact Or.inl ⟨rfl, rfl⟩
      case h_2 ev' hev' => cases h; exact Or.inr ⟨rfl, ev', hev', rfl⟩

/-- One thread whose events take samples, and nothing else: the records of a ring are those of
`Thread.sample`. -/
def samplerMachine (T : TraceEvents) : Machine (Sampler T) SamplerEvent where
  next s
    | .sample fd e => (s.thread.sample g fd e).map fun th => ⟨th, s.heap⟩
    | .deliver => s.thread.deliver.map fun th => ⟨th, s.heap⟩
    | .handle now => s.handle g now

end Handler

end AccessSampling
