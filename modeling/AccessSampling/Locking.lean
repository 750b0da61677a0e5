import AccessSampling.AddMetric

/-!
# The registration lock

`add_metric` registers a metric between `buffer_mutex_.lock ()` and
`buffer_mutex_.unlock ()`, and the statements in between may throw: allocating the event
buffer, inserting it in `thread_event_buffers_`, and appending to `all_events_`.
`Plugin.register` is that section in one piece; here it is taken statement by statement,
by any number of threads.

* `Point` — the statement of `add_metric` a thread is before, with what the call has
  computed so far.
* `lockingMachine` — one statement of one thread is one step.  Whether a statement throws is
  part of the event; an exception leaves the call, and unlocks nothing.
* `Locking.Turn` — what a step can do to the lock.
* `exec_section` — the statements of one thread, when none throws, are `Plugin.register`.
* `lock_released_iff` — the lock is always released again exactly as long as no statement
  under it throws.

A statement is a step here, and no handler runs, since handlers take no lock: they come in
with `Process`.  `set_event_buffer` belongs to the step of the insertion, and `enable ()`
to that of `event_open`, because the lock is held, or free, during the whole of both.  The
statements that may throw are those that allocate memory.
-/

namespace AccessSampling

open Foundation

/-- The statement of `add_metric` a call is before. -/
inductive Point where
  /-- `buffer_mutex_.lock ()` -/
  | lock (event : List Char) (attr : PerfEventAttribute)
  /-- `thread_event_buffers_.find (tid)` -/
  | find (event : List Char) (attr : PerfEventAttribute)
  /-- `std::make_shared<EventRingBuffer> (buffer_size_)` -/
  | make_shared (event : List Char) (attr : PerfEventAttribute)
  /-- `thread_event_buffers_[tid] =`, and `set_event_buffer` -/
  | insert (event : List Char) (attr : PerfEventAttribute) (p : BufferPtr)
  /-- `all_events_.push_back` -/
  | push_back (event : List Char) (attr : PerfEventAttribute)
  /-- `buffer_mutex_.unlock ()` -/
  | unlock (id : Int32) (attr : PerfEventAttribute)
  /-- `event_open` -/
  | event_open (id : Int32) (attr : PerfEventAttribute)

/-- How many statements there are at most up to `unlock ()`, it included; none outside the
section. -/
def Point.left : Point → ℕ
  | .find _ _ => 5
  | .make_shared _ _ => 4
  | .insert _ _ _ => 3
  | .push_back _ _ => 2
  | .unlock _ _ => 1
  | .lock _ _ | .event_open _ _ => 0

structure Caller where
  thread : Thread
  call : Option Point

/-- The threads that share the plugin, and the plugin's lock. -/
structure Locking (T : TraceEvents) where
  plugin : Plugin T
  /-- The thread that has locked `buffer_mutex_`. -/
  buffer_mutex_ : Option ThreadId
  threads : ThreadId → Option Caller
  /-- The capacities the event buffers have been created with. -/
  capacities : List UInt64

inductive LockingEvent where
  | start (t : ThreadId)
  | exit (t : ThreadId)
  /-- `add_metric` is called, and computes the event and its attributes. -/
  | call (t : ThreadId) (metric : List Char)
  | lock (t : ThreadId)
  | find (t : ThreadId)
  | make_shared (t : ThreadId) (ok : Bool)
  | insert (t : ThreadId) (ok : Bool)
  | push_back (t : ThreadId) (ok : Bool)
  | unlock (t : ThreadId)
  /-- `event_open`, and after it `enable ()`; `add_metric` returns or throws. -/
  | event_open (t : ThreadId) (o : OpenOutcome)

/-- The thread that takes the step. -/
def LockingEvent.tid : LockingEvent → ThreadId
  | .start t | .exit t | .call t _ | .lock t | .find t | .make_shared t _ | .insert t _
  | .push_back t _ | .unlock t | .event_open t _ => t

/-- A statement under the lock throws. -/
def LockingEvent.throws : LockingEvent → Bool
  | .make_shared _ ok | .insert _ ok | .push_back _ ok => !ok
  | _ => false

section Locking

variable {T : TraceEvents}

namespace Locking

/-- The plugin has been loaded, and no thread has started. -/
def init (T : TraceEvents) : Locking T where
  plugin := .init T
  buffer_mutex_ := none
  threads := fun _ => none
  capacities := []

def set (s : Locking T) (t : ThreadId) (k : Option Caller) : Locking T :=
  { s with threads := Function.update s.threads t k }

/-- The statement the call of a thread is before. -/
def point (s : Locking T) (t : ThreadId) : Option Point := (s.threads t).bind Caller.call

/-- How many statements the thread is at most from having unlocked. -/
def left (s : Locking T) (t : ThreadId) : ℕ := (s.point t).elim 0 Point.left

/-! ### Steps -/

def start (t : ThreadId) (s : Locking T) : Option (Locking T) :=
  match s.threads t with
  | some _ => none
  | none => some (s.set t (some ⟨.new, none⟩))

def exit (t : ThreadId) (s : Locking T) : Option (Locking T) :=
  (s.threads t).bind fun k => match k.call with
    | none => some (s.set t none)
    | some _ => none

def call (pfm : Pfm) (t : ThreadId) (metric : List Char) (s : Locking T) : Option (Locking T) :=
  (s.threads t).bind fun k => match k.call with
    | none => match encode pfm metric with
      | .error _ => some s
      | .ok (event, attr) => some (s.set t (some { k with call := some (.lock event attr) }))
    | some _ => none

/-- A thread that finds `buffer_mutex_` locked waits. -/
def lock (t : ThreadId) (s : Locking T) : Option (Locking T) :=
  (s.threads t).bind fun k => match k.call, s.buffer_mutex_ with
    | some (.lock event attr), none =>
        some ({ s with buffer_mutex_ := some t }.set t
          (some { k with call := some (.find event attr) }))
    | _, _ => none

def find (t : ThreadId) (s : Locking T) : Option (Locking T) :=
  (s.threads t).bind fun k => match k.call with
    | some (.find event attr) =>
        if t ∈ s.plugin.thread_event_buffers_ then
          some (s.set t (some { k with call := some (.push_back event attr) }))
        else some (s.set t (some { k with call := some (.make_shared event attr) }))
    | _ => none

def make_shared (buffer_size_ : UInt64) (t : ThreadId) (ok : Bool) (s : Locking T) :
    Option (Locking T) :=
  (s.threads t).bind fun k => match k.call with
    | some (.make_shared event attr) =>
        if ok then
          some ({ s with
              plugin := { s.plugin with allocated := s.plugin.allocated + 1 }
              capacities := s.capacities ++ [buffer_size_] }.set t
            (some { k with call := some (.insert event attr s.plugin.allocated) }))
        else some (s.set t (some { k with call := none }))
    | _ => none

def insert (t : ThreadId) (ok : Bool) (s : Locking T) : Option (Locking T) :=
  (s.threads t).bind fun k => match k.call with
    | some (.insert event attr p) =>
        if ok then
          some ({ s with plugin := { s.plugin with
              thread_event_buffers_ := s.plugin.thread_event_buffers_.insert t (some p) } }.set t
            (some ⟨k.thread.set_event_buffer (some p), some (.push_back event attr)⟩))
        else some (s.set t (some { k with call := none }))
    | _ => none

def push_back (t : ThreadId) (ok : Bool) (s : Locking T) : Option (Locking T) :=
  (s.threads t).bind fun k => match k.call with
    | some (.push_back event attr) =>
        if ok then
          let id := Int32.ofNat s.plugin.all_events_.length
          some ({ s with plugin := { s.plugin with
              all_events_ := s.plugin.all_events_ ++ [(t, event)] } }.set t
            (some { k with call := some (.unlock id attr) }))
        else some (s.set t (some { k with call := none }))
    | _ => none

def unlock (t : ThreadId) (s : Locking T) : Option (Locking T) :=
  (s.threads t).bind fun k => match k.call with
    | some (.unlock id attr) =>
        some ({ s with buffer_mutex_ := none }.set t
          (some { k with call := some (.event_open id attr) }))
    | _ => none

def event_open (g : Geometry) (t : ThreadId) (o : OpenOutcome) (s : Locking T) :
    Option (Locking T) :=
  (s.threads t).bind fun k => match k.call with
    | some (.event_open _ attr) =>
        match k.thread.event_open g attr o with
        | (.error _, th) => some (s.set t (some ⟨th, none⟩))
        | (.ok (), th) => some (s.set t (some ⟨th.enable, none⟩))
    | _ => none

end Locking

def lockingMachine (g : Geometry) (pfm : Pfm) (buffer_size_ : UInt64) (T : TraceEvents) :
    Machine (Locking T) LockingEvent where
  next s
    | .start t => s.start t
    | .exit t => s.exit t
    | .call t metric => s.call pfm t metric
    | .lock t => s.lock t
    | .find t => s.find t
    | .make_shared t ok => s.make_shared buffer_size_ t ok
    | .insert t ok => s.insert t ok
    | .push_back t ok => s.push_back t ok
    | .unlock t => s.unlock t
    | .event_open t o => s.event_open g t o

/-- The statements of a call from `lock ()` to `unlock ()`, when none throws. -/
def Locking.locked_section (s : Locking T) (t : ThreadId) : List LockingEvent :=
  if t ∈ s.plugin.thread_event_buffers_ then
    [.lock t, .find t, .push_back t true, .unlock t]
  else
    [.lock t, .find t, .make_shared t true, .insert t true, .push_back t true, .unlock t]

section Section

variable {g : Geometry} {pfm : Pfm} {buffer_size_ : UInt64} {s : Locking T} {t : ThreadId}
variable {th : Thread} {event : List Char} {attr : PerfEventAttribute}

/-- What every call comes to under the lock. -/
theorem Locking.exec_push_back (hk : s.threads t = some ⟨th, some (.push_back event attr)⟩) :
    (lockingMachine g pfm buffer_size_ T).exec s [.push_back t true, .unlock t] = some
      { plugin := { s.plugin with all_events_ := s.plugin.all_events_ ++ [(t, event)] }
        buffer_mutex_ := none
        threads := Function.update s.threads t (some ⟨th,
          some (.event_open (Int32.ofNat s.plugin.all_events_.length) attr)⟩)
        capacities := s.capacities } := by
  simp [Machine.exec, lockingMachine, push_back, unlock, set, hk]

/-- What a call comes to that needs a buffer. -/
theorem Locking.exec_make_shared (hk : s.threads t = some ⟨th, some (.make_shared event attr)⟩) :
    (lockingMachine g pfm buffer_size_ T).exec s [.make_shared t true, .insert t true] = some
      { plugin := { s.plugin with
          thread_event_buffers_ :=
            s.plugin.thread_event_buffers_.insert t (some s.plugin.allocated)
          allocated := s.plugin.allocated + 1 }
        buffer_mutex_ := s.buffer_mutex_
        threads := Function.update s.threads t (some
          ⟨th.set_event_buffer (some s.plugin.allocated), some (.push_back event attr)⟩)
        capacities := s.capacities ++ [buffer_size_] } := by
  simp [Machine.exec, lockingMachine, make_shared, insert, set, hk]

/-- **The section, statement by statement**, is `Plugin.register`. -/
theorem Locking.exec_section
    (hcall : s.threads t = some ⟨th, some (.lock event attr)⟩) (hfree : s.buffer_mutex_ = none) :
    ∃ s', (lockingMachine g pfm buffer_size_ T).exec s (s.locked_section t) = some s' ∧
      s'.buffer_mutex_ = none ∧
      s'.plugin = (s.plugin.register t event th).2.1 ∧
      s'.threads = Function.update s.threads t (some ⟨(s.plugin.register t event th).2.2,
        some (.event_open (s.plugin.register t event th).1 attr)⟩) := by
  rw [register_eq, locked_section]
  by_cases hmem : t ∈ s.plugin.thread_event_buffers_
  · have hfind : (lockingMachine g pfm buffer_size_ T).exec s [.lock t, .find t] = some
        { s with
          buffer_mutex_ := some t
          threads := Function.update s.threads t (some ⟨th, some (.push_back event attr)⟩) } := by
      simp [Machine.exec, lockingMachine, lock, find, set, hcall, hfree, hmem]
    have hsection := (Machine.exec_append_eq_some _).mpr
      ⟨_, hfind, exec_push_back (Function.update_self ..)⟩
    simp only [if_pos hmem]
    exact ⟨_, hsection, rfl, rfl, Function.update_idem ..⟩
  · have hfind : (lockingMachine g pfm buffer_size_ T).exec s [.lock t, .find t] = some
        { s with
          buffer_mutex_ := some t
          threads := Function.update s.threads t (some ⟨th, some (.make_shared event attr)⟩) } := by
      simp [Machine.exec, lockingMachine, lock, find, set, hcall, hfree, hmem]
    have hbuffer := (Machine.exec_append_eq_some _).mpr
      ⟨_, hfind, exec_make_shared (Function.update_self ..)⟩
    have hsection := (Machine.exec_append_eq_some _).mpr
      ⟨_, hbuffer, exec_push_back (Function.update_self ..)⟩
    simp only [if_neg hmem]
    refine ⟨_, hsection, rfl, rfl, ?_⟩
    rw [Function.update_idem, Function.update_idem]

end Section

/-! ### What a step can do to the lock -/

namespace Locking

variable {g : Geometry} {pfm : Pfm} {buffer_size_ : UInt64} {s s' : Locking T}
variable {e : LockingEvent} {t : ThreadId}

theorem left_of_threads {k : Caller} (hk : s.threads t = some k) :
    s.left t = k.call.elim 0 Point.left := by
  rw [left, point, hk]
  rfl

theorem left_set (s : Locking T) (t : ThreadId) (k : Option Caller) :
    (s.set t k).left = Function.update s.left t ((k.bind Caller.call).elim 0 Point.left) :=
  Function.comp_update (fun k : Option Caller => (k.bind Caller.call).elim 0 Point.left)
    s.threads t k

/-- What a step can do to the lock, and to how far the threads are from unlocking it. -/
inductive Turn (s : Locking T) (e : LockingEvent) (s' : Locking T) : Prop where
  /-- A step outside the section. -/
  | outside (hthrows : e.throws = false) (hzero : s.left e.tid = 0)
      (hmutex : s'.buffer_mutex_ = s.buffer_mutex_) (hleft : s'.left = s.left)
  | locked (hthrows : e.throws = false) (hfree : s.buffer_mutex_ = none)
      (hmutex : s'.buffer_mutex_ = some e.tid) (hleft : s'.left = Function.update s.left e.tid 5)
  /-- A statement under the lock. -/
  | inside (n : ℕ) (hthrows : e.throws = false) (hpos : 0 < n) (hlt : n < s.left e.tid)
      (hmutex : s'.buffer_mutex_ = s.buffer_mutex_)
      (hleft : s'.left = Function.update s.left e.tid n)
  | unlocked (hthrows : e.throws = false) (hpos : 0 < s.left e.tid)
      (hmutex : s'.buffer_mutex_ = none) (hleft : s'.left = Function.update s.left e.tid 0)
  /-- A statement under the lock throws, and the call is left. -/
  | threw (hthrows : e.throws = true) (hpos : 0 < s.left e.tid)
      (hmutex : s'.buffer_mutex_ = s.buffer_mutex_)
      (hleft : s'.left = Function.update s.left e.tid 0)

/-- **What a step does.** -/
inductive Step (g : Geometry) (pfm : Pfm) (buffer_size_ : UInt64) (s : Locking T) :
    LockingEvent → Locking T → Prop where
  | start {t : ThreadId} (hnone : s.threads t = none) :
      Step g pfm buffer_size_ s (.start t) (s.set t (some ⟨.new, none⟩))
  | exit {t : ThreadId} {th : Thread} (hk : s.threads t = some ⟨th, none⟩) :
      Step g pfm buffer_size_ s (.exit t) (s.set t none)
  /-- The metric is refused. -/
  | refused {t : ThreadId} {th : Thread} {metric : List Char} {ex : Exception}
      (hk : s.threads t = some ⟨th, none⟩) (hencode : encode pfm metric = .error ex) :
      Step g pfm buffer_size_ s (.call t metric) s
  | called {t : ThreadId} {th : Thread} {metric event : List Char} {attr : PerfEventAttribute}
      (hk : s.threads t = some ⟨th, none⟩) (hencode : encode pfm metric = .ok (event, attr)) :
      Step g pfm buffer_size_ s (.call t metric) (s.set t (some ⟨th, some (.lock event attr)⟩))
  | locked {t : ThreadId} {th : Thread} {event : List Char} {attr : PerfEventAttribute}
      (hk : s.threads t = some ⟨th, some (.lock event attr)⟩) (hfree : s.buffer_mutex_ = none) :
      Step g pfm buffer_size_ s (.lock t)
        ({ s with buffer_mutex_ := some t }.set t (some ⟨th, some (.find event attr)⟩))
  | known {t : ThreadId} {th : Thread} {event : List Char} {attr : PerfEventAttribute}
      (hk : s.threads t = some ⟨th, some (.find event attr)⟩)
      (hmem : t ∈ s.plugin.thread_event_buffers_) :
      Step g pfm buffer_size_ s (.find t) (s.set t (some ⟨th, some (.push_back event attr)⟩))
  | unknown {t : ThreadId} {th : Thread} {event : List Char} {attr : PerfEventAttribute}
      (hk : s.threads t = some ⟨th, some (.find event attr)⟩)
      (hmem : t ∉ s.plugin.thread_event_buffers_) :
      Step g pfm buffer_size_ s (.find t) (s.set t (some ⟨th, some (.make_shared event attr)⟩))
  | created {t : ThreadId} {th : Thread} {event : List Char} {attr : PerfEventAttribute}
      (hk : s.threads t = some ⟨th, some (.make_shared event attr)⟩) :
      Step g pfm buffer_size_ s (.make_shared t true)
        ({ s with
            plugin := { s.plugin with allocated := s.plugin.allocated + 1 }
            capacities := s.capacities ++ [buffer_size_] }.set t
          (some ⟨th, some (.insert event attr s.plugin.allocated)⟩))
  | inserted {t : ThreadId} {th : Thread} {event : List Char} {attr : PerfEventAttribute}
      {p : BufferPtr} (hk : s.threads t = some ⟨th, some (.insert event attr p)⟩) :
      Step g pfm buffer_size_ s (.insert t true)
        ({ s with plugin := { s.plugin with
            thread_event_buffers_ := s.plugin.thread_event_buffers_.insert t (some p) } }.set t
          (some ⟨th.set_event_buffer (some p), some (.push_back event attr)⟩))
  | pushed {t : ThreadId} {th : Thread} {event : List Char} {attr : PerfEventAttribute}
      (hk : s.threads t = some ⟨th, some (.push_back event attr)⟩) :
      Step g pfm buffer_size_ s (.push_back t true)
        ({ s with plugin := { s.plugin with
            all_events_ := s.plugin.all_events_ ++ [(t, event)] } }.set t
          (some ⟨th, some (.unlock (Int32.ofNat s.plugin.all_events_.length) attr)⟩))
  /-- A statement under the lock throws, and the call is left. -/
  | threw {e : LockingEvent} {th : Thread} {p : Point} (hthrows : e.throws = true)
      (hk : s.threads e.tid = some ⟨th, some p⟩) (hpos : 0 < p.left) :
      Step g pfm buffer_size_ s e (s.set e.tid (some ⟨th, none⟩))
  | unlocked {t : ThreadId} {th : Thread} {id : Int32} {attr : PerfEventAttribute}
      (hk : s.threads t = some ⟨th, some (.unlock id attr)⟩) :
      Step g pfm buffer_size_ s (.unlock t)
        ({ s with buffer_mutex_ := none }.set t (some ⟨th, some (.event_open id attr)⟩))
  /-- `add_metric` returns or throws. -/
  | opened {t : ThreadId} {th th' : Thread} {id : Int32} {attr : PerfEventAttribute}
      {o : OpenOutcome} (hk : s.threads t = some ⟨th, some (.event_open id attr)⟩) :
      Step g pfm buffer_size_ s (.event_open t o) (s.set t (some ⟨th', none⟩))

theorem step_of_next (h : (lockingMachine g pfm buffer_size_ T).next s e = some s') :
    s.Step g pfm buffer_size_ e s' := by
  cases e with
  | start t =>
      simp only [lockingMachine, start] at h
      split at h
      case h_1 => cases h
      case h_2 hnone =>
        cases h
        exact .start hnone
  | exit t =>
      obtain ⟨⟨th, point⟩, hk, h⟩ := Option.bind_eq_some_iff.mp h
      cases point with
      | none =>
          cases h
          exact .exit hk
      | some p => cases h
  | call t metric =>
      obtain ⟨⟨th, point⟩, hk, h⟩ := Option.bind_eq_some_iff.mp h
      cases point with
      | none =>
          dsimp only at h
          split at h
          case h_1 hencode =>
            cases h
            exact .refused hk hencode
          case h_2 hencode =>
            cases h
            exact .called hk hencode
      | some p => cases h
  | lock t =>
      obtain ⟨⟨th, point⟩, hk, h⟩ := Option.bind_eq_some_iff.mp h
      dsimp only at h
      split at h
      case h_1 hfree =>
        cases h
        exact .locked hk hfree
      case h_2 => cases h
  | find t =>
      obtain ⟨⟨th, point⟩, hk, h⟩ := Option.bind_eq_some_iff.mp h
      dsimp only at h
      split at h
      case h_1 =>
        split at h
        case isTrue hmem =>
          cases h
          exact .known hk hmem
        case isFalse hmem =>
          cases h
          exact .unknown hk hmem
      case h_2 => cases h
  | make_shared t ok =>
      obtain ⟨⟨th, point⟩, hk, h⟩ := Option.bind_eq_some_iff.mp h
      dsimp only at h
      split at h
      case h_1 =>
        cases ok with
        | true =>
            cases h
            exact .created hk
        | false =>
            cases h
            exact .threw (e := .make_shared t false) rfl hk (Nat.succ_pos 3)
      case h_2 => cases h
  | insert t ok =>
      obtain ⟨⟨th, point⟩, hk, h⟩ := Option.bind_eq_some_iff.mp h
      dsimp only at h
      split at h
      case h_1 =>
        cases ok with
        | true =>
            cases h
            exact .inserted hk
        | false =>
            cases h
            exact .threw (e := .insert t false) rfl hk (Nat.succ_pos 2)
      case h_2 => cases h
  | push_back t ok =>
      obtain ⟨⟨th, point⟩, hk, h⟩ := Option.bind_eq_some_iff.mp h
      dsimp only at h
      split at h
      case h_1 =>
        cases ok with
        | true =>
            cases h
            exact .pushed hk
        | false =>
            cases h
            exact .threw (e := .push_back t false) rfl hk (Nat.succ_pos 1)
      case h_2 => cases h
  | unlock t =>
      obtain ⟨⟨th, point⟩, hk, h⟩ := Option.bind_eq_some_iff.mp h
      dsimp only at h
      split at h
      case h_1 =>
        cases h
        exact .unlocked hk
      case h_2 => cases h
  | event_open t o =>
      obtain ⟨⟨th, point⟩, hk, h⟩ := Option.bind_eq_some_iff.mp h
      dsimp only at h
      split at h
      case h_1 =>
        split at h
        case h_1 =>
          cases h
          exact .opened hk
        case h_2 =>
          cases h
          exact .opened hk
      case h_2 => cases h

/-- A step creates no buffer, or one of `buffer_size_` entries. -/
theorem Step.capacities (h : s.Step g pfm buffer_size_ e s') :
    s'.capacities = s.capacities ∨ s'.capacities = s.capacities ++ [buffer_size_] := by
  cases h with
  | created => exact Or.inr rfl
  | _ => exact Or.inl rfl

/-- **What a step can do to the lock.** -/
theorem Step.turn (h : s.Step g pfm buffer_size_ e s') : s.Turn e s' := by
  have hset := s.left_set e.tid
  cases h with
  | @start t hnone =>
      have hzero : s.left t = 0 := by rw [left, point, hnone]; rfl
      exact .outside rfl hzero rfl ((hset _).trans (hzero ▸ Function.update_eq_self t s.left))
  | exit hk | called hk _ | opened hk =>
      have hzero := left_of_threads hk
      exact .outside rfl hzero rfl ((hset _).trans (hzero ▸ Function.update_eq_self _ s.left))
  | refused hk => exact .outside rfl (left_of_threads hk) rfl rfl
  | locked hk hfree => exact .locked rfl hfree rfl (hset _)
  | known hk hmem =>
      have hfive : s.left _ = 5 := left_of_threads hk
      exact .inside 2 rfl (by decide) (hfive.symm ▸ by decide) rfl (hset _)
  | unknown hk hmem =>
      have hfive : s.left _ = 5 := left_of_threads hk
      exact .inside 4 rfl (by decide) (hfive.symm ▸ by decide) rfl (hset _)
  | created hk =>
      have hfour : s.left _ = 4 := left_of_threads hk
      exact .inside 3 rfl (by decide) (hfour.symm ▸ by decide) rfl (hset _)
  | inserted hk =>
      have hthree : s.left _ = 3 := left_of_threads hk
      exact .inside 2 rfl (by decide) (hthree.symm ▸ by decide) rfl (hset _)
  | pushed hk =>
      have htwo : s.left _ = 2 := left_of_threads hk
      exact .inside 1 rfl (by decide) (htwo.symm ▸ by decide) rfl (hset _)
  | unlocked hk =>
      have hone : s.left _ = 1 := left_of_threads hk
      exact .unlocked rfl (hone.symm ▸ by decide) rfl (hset _)
  | threw hthrows hk hpos => exact .threw hthrows (left_of_threads hk ▸ hpos) rfl (hset _)

theorem turn_of_next (h : (lockingMachine g pfm buffer_size_ T).next s e = some s') :
    s.Turn e s' :=
  (step_of_next h).turn

/-! ### The lock and the section -/

/-- Whoever is under the lock has locked it. -/
def Owned (s : Locking T) : Prop := ∀ t, 0 < s.left t → s.buffer_mutex_ = some t

/-- The lock is held only by a thread that is between `lock ()` and `unlock ()`. -/
def Released (s : Locking T) : Prop := ∀ t, s.buffer_mutex_ = some t → 0 < s.left t

/-- The thread that holds the lock, if there is one, is at most five statements away from
releasing it, and takes them without waiting for anyone. -/
def Obtainable (g : Geometry) (pfm : Pfm) (buffer_size_ : UInt64) (s : Locking T) : Prop :=
  ∃ es s', es.length ≤ 5 ∧ (∀ e ∈ es, s.buffer_mutex_ = some e.tid ∧ e.throws = false) ∧
    (lockingMachine g pfm buffer_size_ T).exec s es = some s' ∧ s'.buffer_mutex_ = none

theorem left_le (s : Locking T) (t : ThreadId) : s.left t ≤ 5 := by
  rw [left]
  cases s.point t with
  | none => exact Nat.zero_le 5
  | some p => cases p <;> simp [Point.left]

/-- How far the threads are, once one of them has gone on. -/
theorem left_update {n : ℕ} (h : s'.left = Function.update s.left t n) (u : ThreadId) :
    (u = t ∧ s'.left u = n) ∨ (u ≠ t ∧ s'.left u = s.left u) := by
  by_cases hu : u = t
  · subst hu
    exact Or.inl ⟨rfl, by rw [h, Function.update_self]⟩
  · exact Or.inr ⟨hu, by rw [h, Function.update_of_ne hu]⟩

theorem Turn.owned (hturn : s.Turn e s') (h : s.Owned) : s'.Owned := by
  intro u hu
  cases hturn with
  | outside _ _ hmutex hleft =>
      rw [hleft] at hu
      rw [hmutex]
      exact h u hu
  | locked _ hfree hmutex hleft =>
      rcases left_update hleft u with ⟨rfl, -⟩ | ⟨-, hsame⟩
      · exact hmutex
      · -- nobody can be under a lock that was free
        rw [hsame] at hu
        rw [h u hu] at hfree
        cases hfree
  | inside n _ hpos hlt hmutex hleft =>
      rw [hmutex]
      rcases left_update hleft u with ⟨rfl, -⟩ | ⟨-, hsame⟩
      · exact h _ (Nat.zero_lt_of_lt hlt)
      · exact h u (hsame ▸ hu)
  | unlocked _ hpos hmutex hleft =>
      rcases left_update hleft u with ⟨rfl, hzero⟩ | ⟨hne, hsame⟩
      · omega
      · have hself := h _ hpos
        rw [h u (hsame ▸ hu)] at hself
        exact absurd (Option.some.inj hself) hne
  | threw _ hpos hmutex hleft =>
      rw [hmutex]
      rcases left_update hleft u with ⟨rfl, hzero⟩ | ⟨-, hsame⟩
      · omega
      · exact h u (hsame ▸ hu)

theorem Turn.released (hturn : s.Turn e s') (h : s.Released) (hthrows : e.throws = false) :
    s'.Released := by
  intro u hu
  cases hturn with
  | outside _ _ hmutex hleft =>
      rw [hleft]
      exact h u (hmutex ▸ hu)
  | locked _ hfree hmutex hleft =>
      rcases left_update hleft u with ⟨-, hfive⟩ | ⟨hne, -⟩
      · omega
      · rw [hmutex] at hu
        exact absurd (Option.some.inj hu).symm hne
  | inside n _ hpos hlt hmutex hleft =>
      rcases left_update hleft u with ⟨-, hn⟩ | ⟨-, hsame⟩
      · omega
      · rw [hsame]
        exact h u (hmutex ▸ hu)
  | unlocked _ hpos hmutex hleft =>
      rw [hmutex] at hu
      cases hu
  | threw hthrew =>
      rw [hthrows] at hthrew
      cases hthrew

/-- **A thread under the lock can go on**, whatever the others do. -/
theorem exists_next (h : 0 < s.left t) :
    ∃ e, e.tid = t ∧ e.throws = false ∧
      ((lockingMachine g pfm buffer_size_ T).next s e).isSome := by
  cases hk : s.threads t with
  | none =>
      rw [left, point, hk] at h
      cases h
  | some k =>
      rw [left_of_threads hk] at h
      cases hcall : k.call with
      | none =>
          rw [hcall] at h
          cases h
      | some p =>
          rw [hcall] at h
          cases p with
          | lock event attr => cases h
          | find event attr =>
              refine ⟨.find t, rfl, rfl, ?_⟩
              simp only [lockingMachine, find, hk, Option.bind_some, hcall]
              split <;> rfl
          | make_shared event attr =>
              refine ⟨.make_shared t true, rfl, rfl, ?_⟩
              simp only [lockingMachine, make_shared, hk, Option.bind_some, hcall]
              rfl
          | insert event attr p =>
              refine ⟨.insert t true, rfl, rfl, ?_⟩
              simp only [lockingMachine, insert, hk, Option.bind_some, hcall]
              rfl
          | push_back event attr =>
              refine ⟨.push_back t true, rfl, rfl, ?_⟩
              simp only [lockingMachine, push_back, hk, Option.bind_some, hcall]
              rfl
          | unlock id attr =>
              refine ⟨.unlock t, rfl, rfl, ?_⟩
              simp only [lockingMachine, unlock, hk, Option.bind_some, hcall]
              rfl
          | event_open id attr => cases h

/-- From under the lock, a thread comes to release it. -/
theorem exists_exec_unlocked {n : ℕ} (hn : s.left t = n) (hpos : 0 < n) (h : s.Owned) :
    ∃ es s', es.length ≤ n ∧ (∀ e ∈ es, e.tid = t ∧ e.throws = false) ∧
      (lockingMachine g pfm buffer_size_ T).exec s es = some s' ∧
      s'.buffer_mutex_ = none := by
  induction n using Nat.strong_induction_on generalizing s with
  | _ n ih =>
      obtain ⟨e, rfl, hthrows, hsome⟩ : ∃ e, e.tid = t ∧ e.throws = false ∧
          ((lockingMachine g pfm buffer_size_ T).next s e).isSome := exists_next (hn ▸ hpos)
      obtain ⟨s₁, hnext⟩ := Option.isSome_iff_exists.mp hsome
      have hself : ∀ f ∈ [e], f.tid = e.tid ∧ f.throws = false := by
        intro f hf
        cases List.mem_singleton.mp hf
        exact ⟨rfl, hthrows⟩
      have hmutex : s.buffer_mutex_ = some e.tid := h e.tid (hn ▸ hpos)
      have hturn := turn_of_next hnext
      have howned := hturn.owned h
      cases hturn with
      | outside _ hzero =>
          rw [hn] at hzero
          exact absurd hzero hpos.ne'
      | locked _ hfree =>
          rw [hmutex] at hfree
          cases hfree
      | inside m _ hm hlt _ hleft =>
          have hleft' : s₁.left e.tid = m := by rw [hleft, Function.update_self]
          obtain ⟨es, s', hlen, hes, hrun, hfree⟩ := ih m (hn ▸ hlt) hleft' hm howned
          refine ⟨e :: es, s', ?_, ?_, ?_, hfree⟩
          · rw [List.length_cons]
            omega
          · exact List.forall_mem_cons.mpr ⟨⟨rfl, hthrows⟩, hes⟩
          · exact (Machine.exec_cons_eq_some _).mpr ⟨s₁, hnext, hrun⟩
      | unlocked _ _ hfree =>
          exact ⟨[e], s₁, hpos, hself, (Machine.exec_singleton _ s e).trans hnext, hfree⟩
      | threw hthrew =>
          rw [hthrows] at hthrew
          cases hthrew

theorem Owned.obtainable (h : s.Owned) (hreleased : s.Released) :
    s.Obtainable g pfm buffer_size_ := by
  cases hmutex : s.buffer_mutex_ with
  | none => exact ⟨[], s, Nat.zero_le 5, fun e he => absurd he List.not_mem_nil, rfl, hmutex⟩
  | some t =>
      obtain ⟨es, s', hlen, hes, hrun, hfree⟩ := exists_exec_unlocked rfl (hreleased t hmutex) h
      refine ⟨es, s', hlen.trans (s.left_le t), fun e he => ?_, hrun, hfree⟩
      obtain ⟨htid, hthrows⟩ := hes e he
      exact ⟨htid ▸ hmutex, hthrows⟩

theorem owned_init (T : TraceEvents) : (init T).Owned := fun _ ht => absurd ht (Nat.lt_irrefl 0)

theorem released_init (T : TraceEvents) : (init T).Released := fun _ ht => by cases ht

theorem Owned.of_exec {es : List LockingEvent}
    (hrun : (lockingMachine g pfm buffer_size_ T).exec (init T) es = some s) : s.Owned :=
  (lockingMachine g pfm buffer_size_ T).exec_preserves
    (fun _ _ _ h hnext => (turn_of_next hnext).owned h) (owned_init T) hrun

/-- After an exception under the lock, the lock is held by a thread that has left the
section. -/
theorem not_released_of_throws (h : s.Owned) (hthrows : e.throws = true)
    (hnext : (lockingMachine g pfm buffer_size_ T).next s e = some s') : ¬ s'.Released := by
  intro hreleased
  cases turn_of_next hnext with
  | outside hno | locked hno | inside _ hno | unlocked hno =>
      rw [hthrows] at hno
      cases hno
  | threw _ hpos hmutex hleft =>
      have hheld := hreleased e.tid (hmutex.trans (h e.tid hpos))
      rw [hleft, Function.update_self] at hheld
      exact absurd hheld (Nat.lt_irrefl 0)

/-- **The lock is always released.**  Under the lock there is, at any time of a run, only a
thread between `lock ()` and `unlock ()`, which goes on to release it, exactly as long as
no statement under the lock throws. -/
theorem lock_released_iff {es : List LockingEvent}
    (hrun : (lockingMachine g pfm buffer_size_ T).exec (init T) es = some s) :
    (lockingMachine g pfm buffer_size_ T).Through
        (fun s => s.Released ∧ s.Obtainable g pfm buffer_size_) (init T) es ↔
      ∀ e ∈ es, e.throws = false := by
  constructor
  · intro hthrough e he
    by_contra hthrows
    rw [Bool.not_eq_false] at hthrows
    obtain ⟨xs, ys, rfl⟩ := List.append_of_mem he
    obtain ⟨s₁, hfirst, hrest⟩ := (Machine.exec_append_eq_some _).mp hrun
    obtain ⟨s₂, hnext, -⟩ := (Machine.exec_cons_eq_some _).mp hrest
    have hlater := (Machine.Through.right _ hthrough hfirst).2 s₂ hnext
    exact not_released_of_throws (.of_exec hfirst) hthrows hnext (Machine.Through.head _ hlater).1
  · intro hes
    have hinv := (lockingMachine g pfm buffer_size_ T).through_of_along
      (I := fun s => s.Owned ∧ s.Released) (Q := fun _ e => e.throws = false)
      (fun _ _ _ h hthrows hnext => ⟨(turn_of_next hnext).owned h.1,
        (turn_of_next hnext).released h.2 hthrows⟩)
      ⟨owned_init T, released_init T⟩ (Machine.along_of_forall_mem _ fun e he _ => hes e he)
    exact Machine.Through.mono _ (fun s h => ⟨h.2, h.1.obtainable h.2⟩) hinv

/-! ### A lock that is lost -/

/-- The lock is held by a thread that has left the section. -/
def Lost (s : Locking T) : Prop := ∃ t, s.buffer_mutex_ = some t ∧ s.left t = 0

theorem Turn.lost (hturn : s.Turn e s') (howned : s.Owned) (h : s.Lost) : s'.Lost := by
  obtain ⟨t, hmutex, hzero⟩ := h
  -- only the thread that holds the lock can be under it
  have hnobody : ∀ u, s.left u = 0 := by
    intro u
    by_contra hu
    have hown := howned u (Nat.pos_of_ne_zero hu)
    rw [hmutex] at hown
    exact hu (Option.some.inj hown ▸ hzero)
  cases hturn with
  | outside _ _ hmutex' hleft => exact ⟨t, hmutex'.trans hmutex, by rw [hleft, hzero]⟩
  | locked _ hfree =>
      rw [hmutex] at hfree
      cases hfree
  | inside n _ _ hlt => exact absurd (hnobody e.tid) (Nat.ne_zero_of_lt hlt)
  | unlocked _ hpos => exact absurd (hnobody e.tid) hpos.ne'
  | threw _ hpos => exact absurd (hnobody e.tid) hpos.ne'

/-- **A lost lock blocks every call from then on**, by any thread. -/
theorem Lost.never_locked {es : List LockingEvent} (h : s.Lost) (howned : s.Owned)
    (hrun : (lockingMachine g pfm buffer_size_ T).exec s es = some s') (t : ThreadId) :
    (lockingMachine g pfm buffer_size_ T).next s' (.lock t) = none := by
  obtain ⟨-, u, hmutex, -⟩ : s'.Owned ∧ s'.Lost :=
    (lockingMachine g pfm buffer_size_ T).exec_preserves (I := fun s => s.Owned ∧ s.Lost)
      (fun _ _ _ hinv hnext => ⟨(turn_of_next hnext).owned hinv.1,
        (turn_of_next hnext).lost hinv.1 hinv.2⟩) ⟨howned, h⟩ hrun
  cases hnext : (lockingMachine g pfm buffer_size_ T).next s' (.lock t) with
  | none => rfl
  | some s'' =>
      obtain ⟨k, hk, hlock⟩ := Option.bind_eq_some_iff.mp hnext
      split at hlock
      case h_1 hcall hfree =>
        rw [hmutex] at hfree
        cases hfree
      case h_2 => cases hlock

end Locking

end Locking

/-- Two threads add a metric each; the second one waits for the first. -/
def inTurn : List LockingEvent :=
  [.start ⟨1⟩, .start ⟨2⟩, .call ⟨1⟩ "Load@1000".toList, .call ⟨2⟩ "Store@2000".toList,
    .lock ⟨1⟩, .find ⟨1⟩, .make_shared ⟨1⟩ true, .insert ⟨1⟩ true, .push_back ⟨1⟩ true,
    .unlock ⟨1⟩, .lock ⟨2⟩, .find ⟨2⟩, .make_shared ⟨2⟩ true, .insert ⟨2⟩ true,
    .push_back ⟨2⟩ true]

theorem lock_released_in_turn :
    (lockingMachine .x86 .intel 5000000 .perf).Through
      (fun s => s.Released ∧ s.Obtainable .x86 .intel 5000000) (.init .perf) inTurn := by
  have hsome : ((lockingMachine .x86 .intel 5000000 .perf).exec (.init .perf) inTurn).isSome := by
    decide +kernel
  obtain ⟨s, hrun⟩ := Option.isSome_iff_exists.mp hsome
  exact (Locking.lock_released_iff hrun).mpr (by decide)

/-- The first thread has no memory for its buffer; the second one calls `add_metric`. -/
def outOfMemory : List LockingEvent :=
  [.start ⟨1⟩, .start ⟨2⟩, .call ⟨1⟩ "Load@1000".toList, .lock ⟨1⟩, .find ⟨1⟩,
    .make_shared ⟨1⟩ false, .call ⟨2⟩ "Load@1000".toList]

/-- The lock stays with a call that has thrown, and no thread ever gets it again. -/
theorem lock_never_released :
    ∃ s, (lockingMachine .x86 .intel (-1) .perf).exec (.init .perf) outOfMemory = some s ∧
      ¬ s.Released ∧
      ∀ es s', (lockingMachine .x86 .intel (-1) .perf).exec s es = some s' →
        ∀ t, (lockingMachine .x86 .intel (-1) .perf).next s' (.lock t) = none := by
  have hlost : ((lockingMachine .x86 .intel (-1) .perf).exec (.init .perf) outOfMemory).map
      (fun s => (s.buffer_mutex_, s.left ⟨1⟩)) = some (some ⟨1⟩, 0) := by decide +kernel
  obtain ⟨s, hrun, hs⟩ := Option.map_eq_some_iff.mp hlost
  obtain ⟨hmutex, hzero⟩ := Prod.mk.inj hs
  refine ⟨s, hrun, fun hreleased => ?_, fun es s' hlater t => ?_⟩
  · exact absurd (hreleased _ hmutex) (hzero ▸ Nat.lt_irrefl 0)
  · exact Locking.Lost.never_locked ⟨_, hmutex, hzero⟩ (.of_exec hrun) hlater t

end AccessSampling
