import AccessSampling.AddMetric
import AccessSampling.Signals
import Mathlib.Data.List.Sort

/-!
# The whole process

`processMachine` puts the threads of a process side by side.  They share the plugin;
each has its own `thread_local` members, its own events and its own `SIGPROF`.  A
thread starts, calls `add_metric` any number of times, may call `stop`, and exits;
between any two of its steps, the others take theirs, its events take samples, and its
handler runs.

* `Frame` — where a call of `add_metric` is.  The section under `buffer_mutex_` is one
  step, and so is `event_open`; the loop of `enable ()` takes one step for each ring.
* `Process` — the state, with what is recorded of the run: which call has opened a
  descriptor, which calls have returned, and what the handlers have drained.
* `Process.Step`, `step_of_next` — what a step can do, one case for each way it can end.
* `Process.Extends` — what no step takes back.
* `exec_add_metric` — the steps of a call that nothing comes between are `add_metric`.
* `exec_sampling` — the steps of one thread are those of `samplerMachine`.

### How large a step is

Signals are delivered between two steps of a thread, so it matters what one step is.

* **The section under `buffer_mutex_`** is one step.  Other threads wait for the lock
  meanwhile (`section_atomic`).  A handler of the thread itself would not notice either: the
  section changes `event_data_` only for a thread id that is new to the map, and such a
  thread has no events yet.
* **`event_open`** is one step, with all its system calls.  The event it opens is disabled,
  and takes no samples before `enable ()`.  What the model leaves out is a `SIGPROF` of an
  older event that arrives *while* `ring_buffers_.emplace` is changing the map that the
  handler looks into; what happens then is not defined.  Here such a signal is delivered before
  the step or after it.
* **`enable ()`** takes one step for each ring: its loop may be interrupted between two
  events, by a handler that disables and enables one of them.
* **A handler** takes one step for each record, as in `samplerMachine`.  The thread's own
  code waits meanwhile, and the other threads do not.

### What the system is taken to do

* **Thread ids** may be used again: a thread may be given the id of one that has exited.
* **Descriptors** are not.  The plugin closes none, so `perf_event_open` returns each only
  once, and a step of `event_open` with a descriptor that is open is not enabled.
* **Records** are samples, for the reasons given in `PerfSampling`.  What is said of every run
  of `processMachine` is said of the runs in which the kernel writes nothing but samples
  into the rings.
-/

namespace AccessSampling

open Foundation

/-- A metric that a call of `add_metric` has registered. -/
structure Registration where
  /-- Its position in `all_events_`. -/
  index : ℕ
  id : Int32
  tid : ThreadId
  metric : List Char
  event : List Char

/-- Where a call of `add_metric` is. -/
inductive Frame where
  /-- Before `buffer_mutex_.lock ()`. -/
  | encoded (metric event : List Char) (attr : PerfEventAttribute)
  /-- Before `event_open`. -/
  | registered (r : Registration) (attr : PerfEventAttribute)
  /-- In the loop of `enable ()`, `fd` being the new descriptor and `fds` what is left. -/
  | enabling (r : Registration) (fd : Fd) (fds : List Fd)

structure Task where
  thread : Thread
  call : Option Frame
  /-- A call of `add_metric` has returned. -/
  completed : Bool

structure Process (T : TraceEvents) where
  plugin : Plugin T
  /-- The threads that run, by their ids. -/
  threads : ThreadId → Option Task
  /-- Which call has opened a descriptor. -/
  opened : Fd → Option Registration
  /-- The calls that have returned, each with the descriptor it has opened. -/
  returned : List (Registration × Fd)
  /-- What the handlers have drained. -/
  drained : List (Entry T)

inductive ProcessEvent where
  /-- A thread starts, with the signal mask of the one that starts it. -/
  | start (t : ThreadId) (blocked : Bool)
  | exit (t : ThreadId)
  /-- `add_metric` is called, and computes the event and its attributes. -/
  | call (t : ThreadId) (metric : List Char)
  | register (t : ThreadId)
  | event_open (t : ThreadId) (o : OpenOutcome)
  /-- The next round of the loop in `enable ()`; after the last, `add_metric` returns. -/
  | enable (t : ThreadId)
  | stop (t : ThreadId)
  | sampling (t : ThreadId) (e : SamplerEvent)

/-- The thread that takes the step. -/
def ProcessEvent.tid : ProcessEvent → ThreadId
  | .start t _ | .exit t | .call t _ | .register t | .event_open t _ | .enable t
  | .stop t | .sampling t _ => t

/-- The steps of a call of `add_metric` that nothing comes between; it leaves the thread
with `n` rings. -/
def addSteps (t : ThreadId) (metric : List Char) (o : OpenOutcome) (n : ℕ) :
    List ProcessEvent :=
  .call t metric :: .register t :: .event_open t o :: List.replicate (n + 1) (.enable t)

/-- A call of `add_metric`. -/
def ProcessEvent.isCall : ProcessEvent → Bool
  | .call _ _ => true
  | _ => false

section Process

variable {T : TraceEvents}

/-- What the next step of the handler makes of a record, whatever `event_data_` is. -/
def Sampler.drains (g : Geometry) (now : UInt64) (s : Sampler T) : List (Entry T) :=
  match Sampler.handle g now ⟨s.thread.set_event_buffer (some 0), fun _ => []⟩ with
  | some s' => s'.heap 0
  | none => []

/-- What a step drains. -/
def drainedBy (g : Geometry) (s : Sampler T) : SamplerEvent → List (Entry T)
  | .handle now => s.drains g now
  | _ => []

namespace Process

/-- The plugin has been loaded, and no thread has started. -/
def init (T : TraceEvents) : Process T where
  plugin := .init T
  threads := fun _ => none
  opened := fun _ => none
  returned := []
  drained := []

def set (s : Process T) (t : ThreadId) (k : Task) : Process T :=
  { s with threads := Function.update s.threads t (some k) }

/-- The thread has exited. -/
def erase (s : Process T) (t : ThreadId) : Process T :=
  { s with threads := Function.update s.threads t none }

@[simp] theorem set_threads_self (s : Process T) (t : ThreadId) (k : Task) :
    (s.set t k).threads t = some k := Function.update_self _ _ _

theorem set_threads_ne (s : Process T) {t u : ThreadId} (k : Task) (h : u ≠ t) :
    (s.set t k).threads u = s.threads u := Function.update_of_ne h _ _

@[simp] theorem erase_threads_self (s : Process T) (t : ThreadId) :
    (s.erase t).threads t = none := Function.update_self _ _ _

theorem erase_threads_ne (s : Process T) {t u : ThreadId} (h : u ≠ t) :
    (s.erase t).threads u = s.threads u := Function.update_of_ne h _ _

/-- What the locked section of `add_metric` would register. -/
def registration (s : Process T) (t : ThreadId) (metric event : List Char) : Registration where
  index := s.plugin.all_events_.length
  id := Int32.ofNat s.plugin.all_events_.length
  tid := t
  metric := metric
  event := event

/-- `perf_event_open` has returned a descriptor, or none. -/
def openedBy (s : Process T) (o : OpenOutcome) (r : Registration) : Fd → Option Registration :=
  if 0 ≤ o.fd then Function.update s.opened o.fd (some r) else s.opened

/-- A thread that runs, and is not in its handler. -/
def ready (s : Process T) (t : ThreadId) : Option Task :=
  (s.threads t).filter fun k => k.thread.handler.isNone

/-! ### Steps -/

def start (t : ThreadId) (blocked : Bool) (s : Process T) : Option (Process T) :=
  match s.threads t with
  | some _ => none
  | none => some (s.set t ⟨{ Thread.new with blocked := blocked }, none, false⟩)

def exit (t : ThreadId) (s : Process T) : Option (Process T) :=
  (s.ready t).bind fun k => match k.call with
    | none => some (s.erase t)
    | some _ => none

def call (pfm : Pfm) (t : ThreadId) (metric : List Char) (s : Process T) :
    Option (Process T) :=
  (s.ready t).bind fun k => match k.call with
    | none => match encode pfm metric with
      | .error _ => some s
      | .ok (event, attr) => some (s.set t { k with call := some (.encoded metric event attr) })
    | some _ => none

def register (t : ThreadId) (s : Process T) : Option (Process T) :=
  (s.ready t).bind fun k => match k.call with
    | some (.encoded metric event attr) =>
        match s.plugin.register t event k.thread with
        | (id, P, th) =>
            let r := { s.registration t metric event with id := id }
            some ({ s with plugin := P }.set t
              { k with thread := th, call := some (.registered r attr) })
    | _ => none

def event_open (g : Geometry) (t : ThreadId) (o : OpenOutcome) (s : Process T) :
    Option (Process T) :=
  (s.ready t).bind fun k => match k.call with
    | some (.registered r attr) =>
        if (s.opened o.fd).isSome then none
        else
          match k.thread.event_open g attr o with
          | (.error _, th) =>
              some ({ s with opened := s.openedBy o r }.set t
                { k with thread := th, call := none })
          | (.ok (), th) =>
              -- a `std::map` is iterated in the order of its keys
              let fds := th.ring_buffers_.keys.insertionSort (· ≤ ·)
              some ({ s with opened := s.openedBy o r }.set t
                { k with thread := th, call := some (.enabling r o.fd fds) })
    | _ => none

def enable (t : ThreadId) (s : Process T) : Option (Process T) :=
  (s.ready t).bind fun k => match k.call with
    | some (.enabling r fd (x :: fds)) =>
        some (s.set t
          { k with thread := k.thread.enable_fd x, call := some (.enabling r fd fds) })
    | some (.enabling r fd []) =>
        some ({ s with returned := s.returned ++ [(r, fd)] }.set t
          { k with call := none, completed := true })
    | _ => none

def stop (t : ThreadId) (s : Process T) : Option (Process T) :=
  (s.ready t).bind fun k => match k.call with
    | none => some (s.set t { k with thread := k.thread.disable })
    | some _ => none

def sampling (g : Geometry) (t : ThreadId) (e : SamplerEvent) (s : Process T) :
    Option (Process T) :=
  (s.threads t).bind fun k =>
    let x : Sampler T := ⟨k.thread, s.plugin.heap⟩
    ((samplerMachine g T).next x e).map fun x' =>
      { s with
        plugin := { s.plugin with heap := x'.heap }
        drained := s.drained ++ drainedBy g x e }.set t { k with thread := x'.thread }

end Process

/-- The threads of a process, whose events take samples and whose handlers run between any two
steps.  No step writes another record into a ring, and none delivers a signal inside a step. -/
def processMachine (g : Geometry) (pfm : Pfm) (T : TraceEvents) :
    Machine (Process T) ProcessEvent where
  next s
    | .start t blocked => s.start t blocked
    | .exit t => s.exit t
    | .call t metric => s.call pfm t metric
    | .register t => s.register t
    | .event_open t o => s.event_open g t o
    | .enable t => s.enable t
    | .stop t => s.stop t
    | .sampling t e => s.sampling g t e

/-! ### What a step can do -/

/-- The steps of the process. -/
inductive Process.Step (g : Geometry) (pfm : Pfm) (s : Process T) :
    ProcessEvent → Process T → Prop where
  | start {t : ThreadId} (blocked : Bool) (hnone : s.threads t = none) :
      Step g pfm s (.start t blocked)
        (s.set t ⟨{ Thread.new with blocked := blocked }, none, false⟩)
  | exit {t : ThreadId} {k : Task} (hk : s.threads t = some k)
      (hhandler : k.thread.handler = none) (hcall : k.call = none) :
      Step g pfm s (.exit t) (s.erase t)
  /-- The metric is refused. -/
  | refused {t : ThreadId} {k : Task} {metric : List Char} {e : Exception}
      (hk : s.threads t = some k) (hencode : encode pfm metric = .error e) :
      Step g pfm s (.call t metric) s
  | called {t : ThreadId} {k : Task} {metric event : List Char} {attr : PerfEventAttribute}
      (hk : s.threads t = some k) (hhandler : k.thread.handler = none) (hcall : k.call = none)
      (hencode : encode pfm metric = .ok (event, attr)) :
      Step g pfm s (.call t metric) (s.set t { k with call := some (.encoded metric event attr) })
  /-- The thread id is in the map. -/
  | known {t : ThreadId} {k : Task} {metric event : List Char} {attr : PerfEventAttribute}
      (hk : s.threads t = some k) (hhandler : k.thread.handler = none)
      (hcall : k.call = some (.encoded metric event attr))
      (hmem : t ∈ s.plugin.thread_event_buffers_) :
      Step g pfm s (.register t)
        ({ s with plugin := { s.plugin with
            all_events_ := s.plugin.all_events_ ++ [(t, event)] } }.set t
          { k with call := some (.registered (s.registration t metric event) attr) })
  /-- The thread id is not in the map. -/
  | added {t : ThreadId} {k : Task} {metric event : List Char} {attr : PerfEventAttribute}
      (hk : s.threads t = some k) (hhandler : k.thread.handler = none)
      (hcall : k.call = some (.encoded metric event attr))
      (hmem : t ∉ s.plugin.thread_event_buffers_) :
      Step g pfm s (.register t)
        ({ s with plugin := { s.plugin with
            all_events_ := s.plugin.all_events_ ++ [(t, event)]
            thread_event_buffers_ :=
              s.plugin.thread_event_buffers_.insert t (some s.plugin.allocated)
            allocated := s.plugin.allocated + 1 } }.set t
          { k with
            thread := k.thread.set_event_buffer (some s.plugin.allocated)
            call := some (.registered (s.registration t metric event) attr) })
  /-- `event_open` fails. -/
  | failed {t : ThreadId} {k : Task} {r : Registration} {attr : PerfEventAttribute}
      {o : OpenOutcome} {e : Exception} (hk : s.threads t = some k)
      (hhandler : k.thread.handler = none) (hcall : k.call = some (.registered r attr))
      (hfresh : s.opened o.fd = none) (hopen : (k.thread.event_open g attr o).1 = .error e) :
      Step g pfm s (.event_open t o)
        ({ s with opened := s.openedBy o r }.set t
          { k with thread := (k.thread.event_open g attr o).2, call := none })
  /-- `event_open` returns. -/
  | opened {t : ThreadId} {k : Task} {r : Registration} {attr : PerfEventAttribute}
      {o : OpenOutcome} (hk : s.threads t = some k)
      (hhandler : k.thread.handler = none) (hcall : k.call = some (.registered r attr))
      (hfresh : s.opened o.fd = none) (hopen : (k.thread.event_open g attr o).1 = .ok ()) :
      Step g pfm s (.event_open t o)
        ({ s with opened := s.openedBy o r }.set t
          { k with
            thread := (k.thread.event_open g attr o).2
            call := some (.enabling r o.fd
              ((k.thread.event_open g attr o).2.ring_buffers_.keys.insertionSort (· ≤ ·))) })
  | enabled {t : ThreadId} {k : Task} {r : Registration} {fd x : Fd} {fds : List Fd}
      (hk : s.threads t = some k) (hhandler : k.thread.handler = none)
      (hcall : k.call = some (.enabling r fd (x :: fds))) :
      Step g pfm s (.enable t)
        (s.set t { k with thread := k.thread.enable_fd x, call := some (.enabling r fd fds) })
  /-- `add_metric` returns. -/
  | returned {t : ThreadId} {k : Task} {r : Registration} {fd : Fd}
      (hk : s.threads t = some k) (hhandler : k.thread.handler = none)
      (hcall : k.call = some (.enabling r fd [])) :
      Step g pfm s (.enable t)
        ({ s with returned := s.returned ++ [(r, fd)] }.set t
          { k with call := none, completed := true })
  | stopped {t : ThreadId} {k : Task} (hk : s.threads t = some k)
      (hhandler : k.thread.handler = none) (hcall : k.call = none) :
      Step g pfm s (.stop t) (s.set t { k with thread := k.thread.disable })
  | sampled {t : ThreadId} {k : Task} {e : SamplerEvent} {x : Sampler T}
      (hk : s.threads t = some k)
      (hnext : (samplerMachine g T).next ⟨k.thread, s.plugin.heap⟩ e = some x) :
      Step g pfm s (.sampling t e)
        ({ s with
          plugin := { s.plugin with heap := x.heap }
          drained := s.drained ++ drainedBy g ⟨k.thread, s.plugin.heap⟩ e }.set t
          { k with thread := x.thread })

section Next

variable {g : Geometry} {pfm : Pfm} {s s' : Process T} {e : ProcessEvent}

theorem Process.ready_eq_some {t : ThreadId} {k : Task} (h : s.ready t = some k) :
    s.threads t = some k ∧ k.thread.handler = none := by
  obtain ⟨hk, hhandler⟩ := Option.filter_eq_some_iff.mp h
  exact ⟨hk, Option.isNone_iff_eq_none.mp hhandler⟩

/-- **What a step can do.** -/
theorem Process.step_of_next (h : (processMachine g pfm T).next s e = some s') :
    Process.Step g pfm s e s' := by
  cases e with
  | start t blocked =>
      simp only [processMachine, Process.start] at h
      split at h
      case h_1 => cases h
      case h_2 hnone =>
        cases h
        exact .start blocked hnone
  | exit t =>
      obtain ⟨k, hready, h⟩ := Option.bind_eq_some_iff.mp h
      obtain ⟨hk, hhandler⟩ := Process.ready_eq_some hready
      split at h
      case h_1 hcall =>
        cases h
        exact .exit hk hhandler hcall
      case h_2 => cases h
  | call t metric =>
      obtain ⟨k, hready, h⟩ := Option.bind_eq_some_iff.mp h
      obtain ⟨hk, hhandler⟩ := Process.ready_eq_some hready
      split at h
      case h_1 hcall =>
        split at h
        case h_1 hencode =>
          cases h
          exact .refused hk hencode
        case h_2 hencode =>
          cases h
          exact .called hk hhandler hcall hencode
      case h_2 => cases h
  | register t =>
      obtain ⟨k, hready, h⟩ := Option.bind_eq_some_iff.mp h
      obtain ⟨hk, hhandler⟩ := Process.ready_eq_some hready
      split at h
      case h_1 metric event attr hcall =>
        rw [register_eq] at h
        by_cases hmem : t ∈ s.plugin.thread_event_buffers_
        · simp only [if_pos hmem] at h
          cases h
          exact .known hk hhandler hcall hmem
        · simp only [if_neg hmem] at h
          cases h
          exact .added hk hhandler hcall hmem
      case h_2 => cases h
  | event_open t o =>
      obtain ⟨k, hready, h⟩ := Option.bind_eq_some_iff.mp h
      obtain ⟨hk, hhandler⟩ := Process.ready_eq_some hready
      split at h
      case h_1 r attr hcall =>
        split at h
        case isTrue => cases h
        case isFalse hfresh =>
          have hnone : s.opened o.fd = none := Option.not_isSome_iff_eq_none.mp hfresh
          split at h
          case h_1 e th hopen =>
            cases h
            have hfailed : Process.Step g pfm s (.event_open t o) _ :=
              .failed hk hhandler hcall hnone (congrArg Prod.fst hopen)
            rwa [hopen] at hfailed
          case h_2 th hopen =>
            cases h
            have hopened : Process.Step g pfm s (.event_open t o) _ :=
              .opened hk hhandler hcall hnone (congrArg Prod.fst hopen)
            rwa [hopen] at hopened
      case h_2 => cases h
  | enable t =>
      obtain ⟨k, hready, h⟩ := Option.bind_eq_some_iff.mp h
      obtain ⟨hk, hhandler⟩ := Process.ready_eq_some hready
      split at h
      case h_1 hcall =>
        cases h
        exact .enabled hk hhandler hcall
      case h_2 hcall =>
        cases h
        exact .returned hk hhandler hcall
      case h_3 => cases h
  | stop t =>
      obtain ⟨k, hready, h⟩ := Option.bind_eq_some_iff.mp h
      obtain ⟨hk, hhandler⟩ := Process.ready_eq_some hready
      split at h
      case h_1 hcall =>
        cases h
        exact .stopped hk hhandler hcall
      case h_2 => cases h
  | sampling t e =>
      obtain ⟨k, hk, h⟩ := Option.bind_eq_some_iff.mp h
      obtain ⟨x, hnext, rfl⟩ := Option.map_eq_some_iff.mp h
      exact .sampled hk hnext

/-- A step leaves the threads alone that do not take it. -/
theorem Process.Step.threads_ne (h : Process.Step g pfm s e s') {u : ThreadId}
    (hu : u ≠ e.tid) : s'.threads u = s.threads u := by
  cases h with
  | refused => rfl
  | exit => exact Function.update_of_ne hu _ _
  | _ => exact Process.set_threads_ne _ _ hu

/-- A run leaves the threads alone that take no step of it. -/
theorem Process.exec_threads_ne {es : List ProcessEvent} {u : ThreadId}
    (hu : ∀ e ∈ es, u ≠ e.tid) (h : (processMachine g pfm T).exec s es = some s') :
    s'.threads u = s.threads u := by
  refine (processMachine g pfm T).exec_invariant (I := fun s₁ => s₁.threads u = s.threads u)
    (Q := fun _ e => u ≠ e.tid) (fun s₁ e s₂ hsame hne hnext => ?_) rfl
    (Machine.along_of_forall_mem _ fun e he _ => hu e he) h
  exact ((Process.step_of_next hnext).threads_ne hne).trans hsame

/-- The threads that run are among those that have taken a step. -/
theorem Process.threads_eq_none {es : List ProcessEvent} {tids : List ThreadId} {u : ThreadId}
    (htids : ∀ e ∈ es, e.tid ∈ tids) (hu : u ∉ tids)
    (h : (processMachine g pfm T).exec (.init T) es = some s) : s.threads u = none := by
  refine Process.exec_threads_ne (fun e he heq => ?_) h
  subst heq
  exact hu (htids e he)

/-- What holds of every thread, once it holds of the one that has changed. -/
theorem Process.forall_set {P : ThreadId → Task → Prop} {t : ThreadId} {k : Task}
    (hother : ∀ u k', s.threads u = some k' → P u k') (hself : P t k) :
    ∀ u k', (s.set t k).threads u = some k' → P u k' := by
  intro u k' hu
  by_cases hut : u = t
  · subst hut
    cases (Process.set_threads_self s u k).symm.trans hu
    exact hself
  · exact hother u k' ((Process.set_threads_ne s k hut).symm.trans hu)

/-- What holds of every thread, when one of them has gone. -/
theorem Process.forall_erase {P : ThreadId → Task → Prop} {t : ThreadId}
    (hother : ∀ u k', s.threads u = some k' → P u k') :
    ∀ u k', (s.erase t).threads u = some k' → P u k' := by
  intro u k' hu
  by_cases hut : u = t
  · subst hut
    cases (s.erase_threads_self u).symm.trans hu
  · exact hother u k' ((s.erase_threads_ne hut).symm.trans hu)

/-! ### What no step takes back -/

/-- Metrics, buffers, descriptors and samples stay where they are. -/
structure Process.Extends (s s' : Process T) : Prop where
  all_events_ : s.plugin.all_events_ <+: s'.plugin.all_events_
  buffers : ∀ t b, s.plugin.thread_event_buffers_.lookup t = some b →
    s'.plugin.thread_event_buffers_.lookup t = some b
  opened : ∀ fd r, s.opened fd = some r → s'.opened fd = some r
  returned : s.returned <+: s'.returned
  drained : s.drained <+: s'.drained

namespace Process.Extends

theorem refl (s : Process T) : s.Extends s :=
  ⟨List.prefix_rfl, fun _ _ h => h, fun _ _ h => h, List.prefix_rfl, List.prefix_rfl⟩

theorem trans {s'' : Process T} (h : s.Extends s') (h' : s'.Extends s'') : s.Extends s'' where
  all_events_ := h.all_events_.trans h'.all_events_
  buffers t b hb := h'.buffers t b (h.buffers t b hb)
  opened fd r hr := h'.opened fd r (h.opened fd r hr)
  returned := h.returned.trans h'.returned
  drained := h.drained.trans h'.drained

/-- A position of `all_events_` keeps its entry. -/
theorem getElem? (h : s.Extends s') {n : ℕ} {x : ThreadId × List Char}
    (hn : s.plugin.all_events_[n]? = some x) : s'.plugin.all_events_[n]? = some x := by
  obtain ⟨xs, hxs⟩ := h.all_events_
  rw [← hxs, List.getElem?_append_left (List.getElem?_eq_some_iff.mp hn).1]
  exact hn

end Process.Extends

/-- A new descriptor has not been opened before. -/
theorem Process.openedBy_of_some {o : OpenOutcome} (r : Registration)
    (hfresh : s.opened o.fd = none) {fd : Fd} {r' : Registration}
    (h : s.opened fd = some r') : s.openedBy o r fd = some r' := by
  unfold Process.openedBy
  split
  case isTrue =>
    have hne : fd ≠ o.fd := fun heq => by
      rw [← heq, h] at hfresh
      cases hfresh
    rw [Function.update_of_ne hne]
    exact h
  case isFalse => exact h

theorem Process.Step.extends (h : Process.Step g pfm s e s') : s.Extends s' := by
  have hrefl := Process.Extends.refl s
  cases h with
  | known => exact { hrefl with all_events_ := List.prefix_append _ _ }
  | @added t k metric event attr _ _ _ hmem =>
      refine { hrefl with all_events_ := List.prefix_append _ _, buffers := fun u b hb => ?_ }
      have hne : u ≠ t := fun heq => hmem (heq ▸ AList.lookup_isSome.mp
        (Option.isSome_of_eq_some hb))
      exact (AList.lookup_insert_ne hne).trans hb
  | @failed t k r attr o _ _ _ _ hfresh =>
      exact { hrefl with opened := fun fd r' hr => s.openedBy_of_some r hfresh hr }
  | @opened t k r attr o _ _ _ hfresh =>
      exact { hrefl with opened := fun fd r' hr => s.openedBy_of_some r hfresh hr }
  | returned => exact { hrefl with returned := List.prefix_append _ _ }
  | sampled => exact { hrefl with drained := List.prefix_append _ _ }
  | _ => exact { hrefl with }

/-- **A run only adds to what was there.** -/
theorem Process.exec_extends {es : List ProcessEvent}
    (h : (processMachine g pfm T).exec s es = some s') : s.Extends s' :=
  (processMachine g pfm T).exec_preserves (I := s.Extends)
    (fun _ _ _ hext hnext => hext.trans (Process.step_of_next hnext).extends)
    (Process.Extends.refl s) h

end Next

/-! ### What a handler drains -/

section Drains

variable {g : Geometry} {s s' : Sampler T}

/-- A round of the loop does the same whatever `event_data_` is, but for where its entry
goes. -/
theorem Sampler.processNext_buffer {now : UInt64} {fd : Fd} {more : Bool}
    (h : s.processNext g now fd = some (more, s')) :
    ∃ xs : List (Entry T), (∀ x ∈ xs, x.fd = fd) ∧
      s'.heap = s.heap.extend s.thread.event_data_ xs ∧
      s'.thread.event_data_ = s.thread.event_data_ ∧
      ∀ b (heap : Heap T), Sampler.processNext g now fd ⟨s.thread.set_event_buffer b, heap⟩
        = some (more, ⟨s'.thread.set_event_buffer b, heap.extend b xs⟩) := by
  obtain ⟨rb, hrb, h⟩ := Option.bind_eq_some_iff.mp h
  obtain ⟨m, hm, h⟩ := Option.bind_eq_some_iff.mp h
  obtain ⟨res, hread, h⟩ := Option.bind_eq_some_iff.mp h
  have hm' : ∀ b, (s.thread.set_event_buffer b).mmapOf fd = some m := fun _ => hm
  have hrb' : ∀ b, (s.thread.set_event_buffer b).ring_buffers_.lookup fd = some rb :=
    fun _ => hrb
  split at h
  case h_1 hnull =>
    cases h
    refine ⟨[], by simp, rfl, rfl, fun b heap => ?_⟩
    simp only [Sampler.processNext, hrb', hm', hread, hnull, Option.bind_some]
    rfl
  case h_2 ptr hptr =>
    obtain ⟨access, haccess, h⟩ := Option.map_eq_some_iff.mp h
    cases access with
    | none =>
        cases h
        refine ⟨[], by simp, rfl, rfl, fun b heap => ?_⟩
        simp only [Sampler.processNext, hrb', hm', hread, hptr, haccess, Option.bind_some]
        rfl
    | some event =>
        cases h
        refine ⟨[⟨fd, event⟩], by simp, rfl, rfl, fun b heap => ?_⟩
        simp only [Sampler.processNext, hrb', hm', hread, hptr, haccess, Option.bind_some]
        rfl

/-- **A step of the handler appends what it drains**, and it drains its own ring. -/
theorem Sampler.handle_heap {now : UInt64} (h : s.handle g now = some s') :
    s'.heap = s.heap.extend s.thread.event_data_ (s.drains g now) ∧
      s'.thread.event_data_ = s.thread.event_data_ ∧
      ∀ x ∈ s.drains g now, s.thread.handler = some (x.fd, .draining) := by
  obtain ⟨fd, ph, hph, hcase⟩ := Sampler.handle_cases h
  have hdrains : ∀ xs th, Sampler.handle g now ⟨s.thread.set_event_buffer (some 0), fun _ => []⟩
        = some ⟨th, Heap.extend (fun _ => []) (some 0) xs⟩ → s.drains g now = xs := by
    intro xs th hshadow
    simp [Sampler.drains, hshadow, Heap.extend_some]
  have hph' : (s.thread.set_event_buffer (some 0)).handler = some (fd, ph) := hph
  cases ph with
  | entered =>
      subst hcase
      rw [hdrains [] _ (by simp only [Sampler.handle, hph']; rfl)]
      exact ⟨rfl, rfl, by simp⟩
  | draining =>
      obtain ⟨more, s₁, hnext, rfl⟩ := hcase
      obtain ⟨xs, hfd, hheap, hdata, hshadow⟩ := Sampler.processNext_buffer hnext
      have hstep := hshadow (some 0) fun _ => []
      have hring : ∀ x ∈ xs, s.thread.handler = some (x.fd, .draining) :=
        fun x hx => hfd x hx ▸ hph
      cases more with
      | true =>
          rw [hdrains xs _ (by simp only [Sampler.handle, hph', hstep]; rfl)]
          exact ⟨hheap, hdata, hring⟩
      | false =>
          rw [hdrains xs _ (by simp only [Sampler.handle, hph', hstep]; rfl)]
          exact ⟨hheap, hdata, hring⟩
  | drained =>
      subst hcase
      rw [hdrains [] _ (by simp only [Sampler.handle, hph']; rfl)]
      exact ⟨rfl, rfl, by simp⟩
  | enabled =>
      subst hcase
      rw [hdrains [] _ (by simp only [Sampler.handle, hph']; rfl)]
      exact ⟨rfl, rfl, by simp⟩

/-- What a step of the thread's events and handler appends. -/
theorem Sampler.next_heap {e : SamplerEvent} (h : (samplerMachine g T).next s e = some s') :
    s'.heap = s.heap.extend s.thread.event_data_ (drainedBy g s e) ∧
      s'.thread.event_data_ = s.thread.event_data_ ∧
      ∀ x ∈ drainedBy g s e, s.thread.handler = some (x.fd, .draining) := by
  cases e with
  | sample fd e =>
      obtain ⟨th, hsample, rfl⟩ := Option.map_eq_some_iff.mp h
      refine ⟨rfl, ?_, by simp [drainedBy]⟩
      obtain ⟨ev, -, -, rfl | ⟨ev', -, -, rfl⟩⟩ := Thread.sample_cases hsample
      · rfl
      · split
        case isTrue => rfl
        case isFalse => rfl
  | deliver =>
      obtain ⟨th, hdeliver, rfl⟩ := Option.map_eq_some_iff.mp h
      obtain ⟨fd, -, -, -, rfl⟩ := Thread.deliver_cases hdeliver
      exact ⟨rfl, rfl, by simp [drainedBy]⟩
  | handle now => exact Sampler.handle_heap h

end Drains

/-! ### Calls that nothing comes between -/

section Undisturbed

variable {g : Geometry} {pfm : Pfm} {s s' : Process T} {t : ThreadId} {k : Task}

theorem Process.ready_of (hk : s.threads t = some k) (hhandler : k.thread.handler = none) :
    s.ready t = some k := by
  simp [Process.ready, hk, hhandler]

theorem Process.next_start (blocked : Bool) (hnone : s.threads t = none) :
    (processMachine g pfm T).next s (.start t blocked)
      = some (s.set t ⟨{ Thread.new with blocked := blocked }, none, false⟩) := by
  simp only [processMachine, Process.start, hnone]

theorem Process.next_exit (hk : s.threads t = some k) (hhandler : k.thread.handler = none)
    (hcall : k.call = none) : (processMachine g pfm T).next s (.exit t) = some (s.erase t) := by
  simp only [processMachine, Process.exit, Process.ready_of hk hhandler, Option.bind_some, hcall]

/-- The step of a metric that is refused. -/
theorem Process.next_call_error {metric : List Char} {ex : Exception}
    (hk : s.threads t = some k) (hhandler : k.thread.handler = none) (hcall : k.call = none)
    (hencode : encode pfm metric = .error ex) :
    (processMachine g pfm T).next s (.call t metric) = some s := by
  simp only [processMachine, Process.call, Process.ready_of hk hhandler, Option.bind_some,
    hcall, hencode]

theorem Process.next_call {metric event : List Char} {attr : PerfEventAttribute}
    (hk : s.threads t = some k) (hhandler : k.thread.handler = none) (hcall : k.call = none)
    (hencode : encode pfm metric = .ok (event, attr)) :
    (processMachine g pfm T).next s (.call t metric)
      = some (s.set t { k with call := some (.encoded metric event attr) }) := by
  simp only [processMachine, Process.call, Process.ready_of hk hhandler, Option.bind_some,
    hcall, hencode]

theorem Process.next_register {metric event : List Char} {attr : PerfEventAttribute}
    (hk : s.threads t = some k) (hhandler : k.thread.handler = none)
    (hcall : k.call = some (.encoded metric event attr)) :
    (processMachine g pfm T).next s (.register t)
      = some ({ s with plugin := (s.plugin.register t event k.thread).2.1 }.set t { k with
          thread := (s.plugin.register t event k.thread).2.2
          call := some (.registered (s.registration t metric event) attr) }) := by
  simp only [processMachine, Process.register, Process.ready_of hk hhandler, Option.bind_some,
    hcall, register_eq]
  rfl

theorem Process.next_event_open {r : Registration} {attr : PerfEventAttribute}
    {o : OpenOutcome} (hk : s.threads t = some k) (hhandler : k.thread.handler = none)
    (hcall : k.call = some (.registered r attr)) (hfresh : s.opened o.fd = none)
    (hopen : (k.thread.event_open g attr o).1 = .ok ()) :
    (processMachine g pfm T).next s (.event_open t o)
      = some ({ s with opened := s.openedBy o r }.set t { k with
          thread := (k.thread.event_open g attr o).2
          call := some (.enabling r o.fd
            ((k.thread.event_open g attr o).2.ring_buffers_.keys.insertionSort (· ≤ ·))) }) := by
  generalize hres : k.thread.event_open g attr o = res at hopen ⊢
  obtain ⟨_, th⟩ := res
  cases hopen
  simp only [processMachine, Process.event_open, Process.ready_of hk hhandler,
    Option.bind_some, hcall, hfresh, Option.isSome_none, Bool.false_eq_true, if_false, hres]

/-- The step of an `event_open` that fails. -/
theorem Process.next_event_open_error {r : Registration} {attr : PerfEventAttribute}
    {o : OpenOutcome} {ex : Exception} (hk : s.threads t = some k)
    (hhandler : k.thread.handler = none) (hcall : k.call = some (.registered r attr))
    (hfresh : s.opened o.fd = none) (hopen : (k.thread.event_open g attr o).1 = .error ex) :
    (processMachine g pfm T).next s (.event_open t o)
      = some ({ s with opened := s.openedBy o r }.set t { k with
          thread := (k.thread.event_open g attr o).2
          call := none }) := by
  generalize hres : k.thread.event_open g attr o = res at hopen ⊢
  obtain ⟨_, th⟩ := res
  cases hopen
  simp only [processMachine, Process.event_open, Process.ready_of hk hhandler,
    Option.bind_some, hcall, hfresh, Option.isSome_none, Bool.false_eq_true, if_false, hres]

theorem Process.next_enable {r : Registration} {fd x : Fd} {fds : List Fd}
    (hk : s.threads t = some k) (hhandler : k.thread.handler = none)
    (hcall : k.call = some (.enabling r fd (x :: fds))) :
    (processMachine g pfm T).next s (.enable t) = some (s.set t
      { k with thread := k.thread.enable_fd x, call := some (.enabling r fd fds) }) := by
  simp only [processMachine, Process.enable, Process.ready_of hk hhandler, Option.bind_some, hcall]

/-- `add_metric` returns. -/
theorem Process.next_return {r : Registration} {fd : Fd} (hk : s.threads t = some k)
    (hhandler : k.thread.handler = none) (hcall : k.call = some (.enabling r fd [])) :
    (processMachine g pfm T).next s (.enable t)
      = some ({ s with returned := s.returned ++ [(r, fd)] }.set t
        { k with call := none, completed := true }) := by
  simp only [processMachine, Process.enable, Process.ready_of hk hhandler, Option.bind_some, hcall]

theorem Process.next_stop (hk : s.threads t = some k) (hhandler : k.thread.handler = none)
    (hcall : k.call = none) :
    (processMachine g pfm T).next s (.stop t)
      = some (s.set t { k with thread := k.thread.disable }) := by
  simp only [processMachine, Process.stop, Process.ready_of hk hhandler, Option.bind_some, hcall]

theorem Process.next_sampling {e : SamplerEvent} {x : Sampler T} (hk : s.threads t = some k)
    (hnext : (samplerMachine g T).next ⟨k.thread, s.plugin.heap⟩ e = some x) :
    (processMachine g pfm T).next s (.sampling t e) = some ({ s with
      plugin := { s.plugin with heap := x.heap }
      drained := s.drained ++ drainedBy g ⟨k.thread, s.plugin.heap⟩ e }.set t
        { k with thread := x.thread }) := by
  simp only [processMachine, Process.sampling, hk, Option.bind_some, hnext, Option.map_some]

/-- The loop of `enable ()`, and the return of `add_metric`. -/
theorem Process.exec_enable {r : Registration} {fd : Fd} {fds : List Fd}
    (hk : s.threads t = some k) (hhandler : k.thread.handler = none)
    (hcall : k.call = some (.enabling r fd fds)) :
    (processMachine g pfm T).exec s (List.replicate (fds.length + 1) (.enable t)) =
      some ({ s with returned := s.returned ++ [(r, fd)] }.set t
        ⟨fds.foldl Thread.enable_fd k.thread, none, true⟩) := by
  induction fds generalizing s k with
  | nil =>
      have hnext : (processMachine g pfm T).next s (.enable t)
          = some ({ s with returned := s.returned ++ [(r, fd)] }.set t ⟨k.thread, none, true⟩) := by
        simp only [processMachine, Process.enable, Process.ready_of hk hhandler,
          Option.bind_some, hcall]
      exact (Machine.exec_singleton _ s _).trans hnext
  | cons x fds ih =>
      have hnext : (processMachine g pfm T).next s (.enable t) = some (s.set t
          ⟨k.thread.enable_fd x, some (.enabling r fd fds), k.completed⟩) := by
        simp only [processMachine, Process.enable, Process.ready_of hk hhandler,
          Option.bind_some, hcall]
      rw [List.length_cons, List.replicate_succ, Machine.exec_cons, hnext, Option.bind_some,
        ih (k := ⟨k.thread.enable_fd x, _, k.completed⟩) (Process.set_threads_self s t _)
          hhandler rfl]
      simp only [Process.set, Function.update_idem, List.foldl_cons]

/-- Enabling the rings in the order of a `std::map` is `enable ()`. -/
theorem Thread.foldl_enable_sorted (th : Thread) :
    (th.ring_buffers_.keys.insertionSort (· ≤ ·)).foldl Thread.enable_fd th = th.enable := by
  rw [Thread.foldl_enable_fd, Thread.enable_eq]
  congr 1
  funext x
  rw [Thread.events_foldl_enable_fd, Thread.events_enable]
  exact if_congr ((List.mem_insertionSort _).trans AList.mem_keys.symm) rfl rfl

/-- **The steps of a call are `add_metric`**, when nothing comes between them and the
call returns. -/
theorem Process.exec_add_metric {metric : List Char} {o : OpenOutcome} {id : Int32}
    {P : Plugin T} {th : Thread} (hk : s.threads t = some k)
    (hhandler : k.thread.handler = none) (hcall : k.call = none)
    (hfresh : s.opened o.fd = none) (hring : o.fd ∉ k.thread.ring_buffers_)
    (h : add_metric g pfm metric o t s.plugin k.thread = (.ok id, P, th)) :
    ∃ n event, (s.registration t metric event).id = id ∧
      (processMachine g pfm T).exec s (addSteps t metric o n) = some ({ s with
        plugin := P
        opened := s.openedBy o (s.registration t metric event)
        returned := s.returned ++ [(s.registration t metric event, o.fd)] }.set t
          ⟨th, none, true⟩) := by
  obtain ⟨event, attr, hencode, rfl, rfl, hopen, rfl⟩ := add_metric_ok h
  have hthread := register_thread s.plugin t event k.thread
  have hhandler₁ : (s.plugin.register t event k.thread).2.2.handler = none := by
    rw [hthread]
    exact hhandler
  have hring₁ : o.fd ∉ (s.plugin.register t event k.thread).2.2.ring_buffers_ := by
    rw [hthread]
    exact hring
  have hhandler₂ : ((s.plugin.register t event k.thread).2.2.event_open g attr o).2.handler
      = none := by
    rw [Thread.event_open_thread hring₁]
    exact hhandler₁
  obtain ⟨n, henable⟩ : ∃ n, (processMachine g pfm T).exec ({ s with
        plugin := (s.plugin.register t event k.thread).2.1
        opened := s.openedBy o (s.registration t metric event) }.set t
          ⟨((s.plugin.register t event k.thread).2.2.event_open g attr o).2,
            some (.enabling (s.registration t metric event) o.fd
              (((s.plugin.register t event k.thread).2.2.event_open g attr
                o).2.ring_buffers_.keys.insertionSort (· ≤ ·))), k.completed⟩)
      (List.replicate (n + 1) (.enable t)) = _ :=
    ⟨_, Process.exec_enable (Process.set_threads_self _ t _) hhandler₂ rfl⟩
  refine ⟨n, event, (congrArg Prod.fst (register_eq s.plugin t event k.thread)).symm, ?_⟩
  rw [addSteps, Machine.exec_cons_eq_some]
  refine ⟨_, Process.next_call hk hhandler hcall hencode, ?_⟩
  rw [Machine.exec_cons_eq_some]
  refine ⟨_, Process.next_register (k := { k with call := some (.encoded metric event attr) })
    (Process.set_threads_self s t _) hhandler rfl, ?_⟩
  rw [Machine.exec_cons_eq_some]
  refine ⟨_, Process.next_event_open (k := { k with
    thread := (s.plugin.register t event k.thread).2.2
    call := some (.registered (s.registration t metric event) attr) })
    (Process.set_threads_self _ t _) hhandler₁ rfl hfresh hopen, ?_⟩
  rw [Thread.foldl_enable_sorted] at henable
  simp only [Process.set, Function.update_idem] at henable ⊢
  exact henable

/-- **The steps of one thread are those of `samplerMachine`**, as long as the others take
none. -/
theorem Process.exec_sampling {es : List SamplerEvent} {x : Sampler T}
    (hk : s.threads t = some k)
    (hrun : (samplerMachine g T).exec ⟨k.thread, s.plugin.heap⟩ es = some x) :
    ∃ s', (processMachine g pfm T).exec s (es.map (.sampling t)) = some s' ∧
      s'.plugin = { s.plugin with heap := x.heap } := by
  induction es generalizing s k with
  | nil =>
      cases hrun
      exact ⟨s, rfl, rfl⟩
  | cons e es ih =>
      obtain ⟨x₁, hnext, hrest⟩ := (Machine.exec_cons_eq_some _).mp hrun
      obtain ⟨s₁, hs₁⟩ : ∃ s₁, s₁ = { s with
          plugin := { s.plugin with heap := x₁.heap }
          drained := s.drained ++ drainedBy g ⟨k.thread, s.plugin.heap⟩ e }.set t
            { k with thread := x₁.thread } := ⟨_, rfl⟩
      have hstep : (processMachine g pfm T).next s (.sampling t e) = some s₁ := by
        simp only [processMachine, Process.sampling, hk, Option.bind_some, hnext, Option.map_some,
          hs₁]
      have hk₁ : s₁.threads t = some { k with thread := x₁.thread } := by
        rw [hs₁, Process.set_threads_self]
      have hheap : s₁.plugin = { s.plugin with heap := x₁.heap } := by
        rw [hs₁]
        rfl
      obtain ⟨s', hrun', hplugin⟩ := ih hk₁ (by rw [hheap]; exact hrest)
      refine ⟨s', ?_, hplugin.trans (by rw [hheap])⟩
      rw [List.map_cons, Machine.exec_cons, hstep]
      exact hrun'

end Undisturbed

end Process

end AccessSampling
