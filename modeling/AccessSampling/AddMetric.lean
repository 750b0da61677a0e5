import AccessSampling.Drain

/-!
# `access_sampling::add_metric`

The plugin object is shared by all threads: the list of all registered events, whose
positions are the metric ids, and the map from thread ids to event buffers.
`Plugin.register` is the section that `buffer_mutex_` protects, and `add_metric` is one
call from its first statement to its last, on one thread.

`add_metric` registers first and opens the event afterwards, and it undoes nothing.
`add_metric_failure` says, for each call of `event_open` that can fail, what a failed
`add_metric` leaves behind, and what a later call then does with it.

What is left behind may be half configured, and the calls come in an order that matters:
`O_ASYNC` is set first and `F_SETSIG` last.  An event whose signals are asked for and whose
owner is set, but not the signal, sends `SIGIO`, which is nothing the plugin handles.
-/

namespace AccessSampling

open Foundation

/-- `std::thread::id`, with the handle it is printed as. -/
structure ThreadId where
  handle : UInt64
  deriving DecidableEq

/-- The members of `access_sampling` that `add_metric` updates, and the event buffers. -/
structure Plugin (T : TraceEvents) where
  all_events_ : List (ThreadId × List Char)
  thread_event_buffers_ : AList fun _ : ThreadId => Option BufferPtr
  heap : Heap T
  /-- The event buffers allocated so far. -/
  allocated : ℕ

/-- The plugin when it has been loaded. -/
def Plugin.init (T : TraceEvents) : Plugin T where
  all_events_ := []
  thread_event_buffers_ := ∅
  heap := fun _ => []
  allocated := 0

section AddMetric

variable {T : TraceEvents} {g : Geometry}

/-- The section of `add_metric` between `lock` and `unlock`: a thread id that is not in
the map gets a buffer, and the thread that buffer; the new metric's id is the number of
events registered before. -/
def Plugin.register (P : Plugin T) (tid : ThreadId) (event : List Char) (th : Thread) :
    Int32 × Plugin T × Thread :=
  let id := Int32.ofNat P.all_events_.length
  let all_events_ := P.all_events_ ++ [(tid, event)]
  if tid ∈ P.thread_event_buffers_ then
    (id, { P with all_events_ := all_events_ }, th)
  else
    (id, { P with
        all_events_ := all_events_
        thread_event_buffers_ := P.thread_event_buffers_.insert tid (some P.allocated)
        allocated := P.allocated + 1 },
      th.set_event_buffer (some P.allocated))

/-- What `add_metric` computes before it takes the lock. -/
def encode (pfm : Pfm) (metric : List Char) :
    Except Exception (List Char × PerfEventAttribute) :=
  match parse_metric metric with
  | .error e => .error e
  | .ok (event, period) =>
      (get_perf_event pfm event period.toUInt64).map fun attr => (event, attr)

/-- `access_sampling::add_metric`, called by the thread `tid`: what it leaves by, the
plugin and the thread. -/
def add_metric (g : Geometry) (pfm : Pfm) (metric : List Char) (o : OpenOutcome)
    (tid : ThreadId) (P : Plugin T) (th : Thread) :
    Except Exception Int32 × Plugin T × Thread :=
  match encode pfm metric with
  | .error e => (.error e, P, th)
  | .ok (event, attr) =>
      match P.register tid event th with
      | (id, P, th) =>
          match th.event_open g attr o with
          | (.error e, th) => (.error e, P, th)
          | (.ok (), th) => (.ok id, P, th.enable)

theorem encode_eq_ok {pfm : Pfm} {metric event : List Char} {attr : PerfEventAttribute} :
    encode pfm metric = .ok (event, attr) ↔
      ∃ period, parse_metric metric = .ok (event, period) ∧
        get_perf_event pfm event period.toUInt64 = .ok attr := by
  unfold encode
  constructor
  · intro h
    split at h
    case h_1 => cases h
    case h_2 name period hparse =>
      cases hget : get_perf_event pfm name period.toUInt64 with
      | error e =>
          rw [hget] at h
          cases h
      | ok a =>
          rw [hget] at h
          cases h
          exact ⟨period, hparse, hget⟩
  · rintro ⟨period, hparse, hget⟩
    simp only [hparse, hget]
    rfl

/-- **The locked section**, field by field. -/
theorem register_eq (P : Plugin T) (tid : ThreadId) (event : List Char) (th : Thread) :
    P.register tid event th =
      (Int32.ofNat P.all_events_.length,
        { all_events_ := P.all_events_ ++ [(tid, event)]
          thread_event_buffers_ :=
            if tid ∈ P.thread_event_buffers_ then P.thread_event_buffers_
            else P.thread_event_buffers_.insert tid (some P.allocated)
          heap := P.heap
          allocated :=
            if tid ∈ P.thread_event_buffers_ then P.allocated else P.allocated + 1 },
        if tid ∈ P.thread_event_buffers_ then th
        else th.set_event_buffer (some P.allocated)) := by
  unfold Plugin.register
  split
  case isTrue => rfl
  case isFalse => rfl

/-- The thread after the locked section has the rings and the events it had before. -/
theorem register_thread (P : Plugin T) (tid : ThreadId) (event : List Char) (th : Thread) :
    (P.register tid event th).2.2 = { th with
      event_data_ := if tid ∈ P.thread_event_buffers_ then th.event_data_
        else some P.allocated } := by
  rw [register_eq]
  split
  case isTrue => rfl
  case isFalse => rfl

/-! ### One call -/

section Call

variable {pfm : Pfm} {metric event : List Char} {attr : PerfEventAttribute}
variable {o : OpenOutcome} {tid : ThreadId} {P P' : Plugin T} {th th' : Thread}

/-- An event is opened disabled. -/
theorem event_disabled (hencode : encode pfm metric = .ok (event, attr)) (o : OpenOutcome) :
    (o.event attr).enabled = false := by
  obtain ⟨period, -, hget⟩ := encode_eq_ok.mp hencode
  simp [OpenOutcome.event, disabled_of_get_perf_event hget]

/-- A call that fails in `event_open` returns what `event_open` has left. -/
theorem add_metric_error {e : Exception} (hencode : encode pfm metric = .ok (event, attr))
    (h : add_metric g pfm metric o tid P th = (.error e, P', th')) :
    P' = (P.register tid event th).2.1 ∧
      th' = ((P.register tid event th).2.2.event_open g attr o).2 := by
  simp only [add_metric, hencode] at h
  split at h
  case h_1 hopen =>
    cases h
    exact ⟨rfl, (congrArg Prod.snd hopen).symm⟩
  case h_2 => cases h

/-- A call that succeeds has opened its event, and enables every event with a ring. -/
theorem add_metric_ok {id : Int32} (h : add_metric g pfm metric o tid P th = (.ok id, P', th')) :
    ∃ event attr, encode pfm metric = .ok (event, attr) ∧
      id = (P.register tid event th).1 ∧ P' = (P.register tid event th).2.1 ∧
      ((P.register tid event th).2.2.event_open g attr o).1 = .ok () ∧
      th' = ((P.register tid event th).2.2.event_open g attr o).2.enable := by
  unfold add_metric at h
  split at h
  case h_1 => cases h
  case h_2 event attr hencode =>
    split at h
    case h_1 id₁ P₁ th₁ hregister =>
      split at h
      case h_1 => cases h
      case h_2 th₂ hopen =>
        cases h
        refine ⟨event, attr, hencode, ?_, ?_, ?_, ?_⟩
        · rw [hregister]
        · rw [hregister]
        · rw [hregister, hopen]
        · rw [hregister, hopen]

/-- **A failed `add_metric` undoes nothing.**  When a call of `event_open` fails:

* the metric keeps its id, and a thread id that was not in the map keeps its buffer;
* a descriptor that `perf_event_open` has returned stays open, its event disabled;
* if the ring has been mapped, it stays in `ring_buffers_`, configured as far as the
  calls went; otherwise `ring_buffers_` is what it was.

A ring that has stayed is enabled by the next call that succeeds, whether or not its
signals were configured: they were not exactly when one of the four `fcntl` failed. -/
theorem add_metric_failure {e : Exception}
    (hencode : encode pfm metric = .ok (event, attr)) (hfresh : o.fd ∉ th.ring_buffers_)
    (h : add_metric g pfm metric o tid P th = (.error e, P', th')) :
    P' = { all_events_ := P.all_events_ ++ [(tid, event)]
           thread_event_buffers_ :=
             if tid ∈ P.thread_event_buffers_ then P.thread_event_buffers_
             else P.thread_event_buffers_.insert tid (some P.allocated)
           heap := P.heap
           allocated :=
             if tid ∈ P.thread_event_buffers_ then P.allocated else P.allocated + 1 } ∧
    th' = { th with
      event_data_ := if tid ∈ P.thread_event_buffers_ then th.event_data_
        else some P.allocated
      events := if 0 ≤ o.fd then Function.update th.events o.fd (some (o.event attr))
        else th.events
      ring_buffers_ := if o.mapped then th.ring_buffers_.insert o.fd (.new g)
        else th.ring_buffers_ } ∧
    (o.event attr).enabled = false ∧
    (o.event attr).notifies = (o.mapped && o.setfl && o.setown && o.setfd && o.setsig) ∧
    ∀ pfm₂ metric₂ o₂ tid₂ (P₂ P₃ : Plugin T) th₂ th₃ id,
      th₂.events o.fd = th'.events o.fd →
      (o.fd ∈ th₂.ring_buffers_ ↔ o.fd ∈ th'.ring_buffers_) →
      o₂.fd ∉ th₂.ring_buffers_ → o₂.fd ≠ o.fd →
      add_metric g pfm₂ metric₂ o₂ tid₂ P₂ th₂ = (.ok id, P₃, th₃) →
      th₃.events o.fd =
        if o.mapped then some { o.event attr with enabled := true } else th'.events o.fd := by
  obtain ⟨rfl, rfl⟩ := add_metric_error hencode h
  have hring : o.fd ∉ (P.register tid event th).2.2.ring_buffers_ := by
    rw [register_thread]
    exact hfresh
  refine ⟨by rw [register_eq], ?_, event_disabled hencode o, ?_, ?_⟩
  · rw [Thread.event_open_thread hring, register_thread]
  · unfold OpenOutcome.event PerfEvent.notifies
    cases o.mapped <;> cases o.setfl <;> cases o.setown <;> cases o.setfd <;> rfl
  · intro pfm₂ metric₂ o₂ tid₂ P₂ P₃ th₂ th₃ id hevent hmem hfresh₂ hne hok
    obtain ⟨event₂, attr₂, -, -, -, -, rfl⟩ := add_metric_ok hok
    have hring₂ : o₂.fd ∉ (P₂.register tid₂ event₂ th₂).2.2.ring_buffers_ := by
      rw [register_thread]
      exact hfresh₂
    have hkept : o.fd ∈ th₂.ring_buffers_ ↔ o.mapped = true := by
      rw [hmem, Thread.mem_rings_event_open hring]
      simp [hring]
    have hsame : ((P₂.register tid₂ event₂ th₂).2.2.event_open g attr₂ o₂).2.events o.fd
        = th₂.events o.fd := by
      rw [Thread.events_event_open_ne hring₂ (Ne.symm hne), register_thread]
    have hin : o.fd ∈ ((P₂.register tid₂ event₂ th₂).2.2.event_open g attr₂ o₂).2.ring_buffers_
        ↔ o.mapped = true := by
      rw [Thread.mem_rings_event_open hring₂, register_thread, ← hkept]
      simp [hne.symm]
    by_cases hmapped : o.mapped = true
    · have hnonneg : 0 ≤ o.fd := by
        simp only [OpenOutcome.mapped, Bool.and_eq_true, decide_eq_true_eq] at hmapped
        exact le_trans (by decide) hmapped.1
      rw [Thread.events_enable, if_pos (hin.mpr hmapped), if_pos hmapped, hsame, hevent,
        Thread.events_event_open_self hring hnonneg]
      rfl
    · rw [Thread.events_enable, if_neg (mt hin.mp hmapped), if_neg hmapped, hsame, hevent]

end Call

end AddMetric

/-- `O_ASYNC` cannot be set on the descriptor. -/
def setflFails : OpenOutcome := { OpenOutcome.success 3 (fun _ => 0) with setfl := false }

/-- The first metric of a thread, added when `o` is what the system answers. -/
def addFirst (o : OpenOutcome) : Except Exception Int32 × Plugin .perf × Thread :=
  add_metric .x86 .intel "Load@1000".toList o ⟨1⟩ (Plugin.init .perf) .new

theorem encode_first : encode .intel "Load@1000".toList
    = .ok ("Load".toList, samplingAttribute 128 1000 0x1cd) := rfl

set_option maxRecDepth 10000 in
/-- A first metric whose event cannot be configured keeps its id and its ring. -/
theorem add_metric_failure_setfl :
    (addFirst setflFails).2.1.all_events_ = [(⟨1⟩, "Load".toList)] ∧
      (3 : Fd) ∈ (addFirst setflFails).2.2.ring_buffers_ := by
  have herror : (addFirst setflFails).1 = .error
      (.runtime_error "Error: Failed to enable the generation of signals on the fd") := rfl
  generalize hrun : addFirst setflFails = r at herror ⊢
  obtain ⟨_, P', th'⟩ := r
  cases herror
  obtain ⟨rfl, rfl, -⟩ := add_metric_failure encode_first (AList.notMem_empty _) hrun
  exact ⟨rfl, (AList.mem_insert _).mpr (Or.inl rfl)⟩

set_option maxRecDepth 10000 in
/-- **`add_metric` is not atomic on failure.**  When `perf_event_open` fails, the metric
has been registered all the same.  When `F_SETFL` fails, the next metric of the thread
enables the event, which sends no signals. -/
theorem add_metric_not_atomic :
    (¬ ∀ (metric event : List Char) (attr : PerfEventAttribute) (o : OpenOutcome)
        (tid : ThreadId) (P P' : Plugin .perf) (th th' : Thread) (e : Exception),
      encode .intel metric = .ok (event, attr) →
      add_metric .x86 .intel metric o tid P th = (.error e, P', th') →
      P'.all_events_ = P.all_events_) ∧
    (let failed := (addFirst setflFails).2
      let added := add_metric .x86 .intel "Store@2000".toList (.success 4 fun _ => 0) ⟨1⟩
        failed.1 failed.2
      (added.2.2.events 3).map (fun ev => (ev.enabled, ev.notifies)) = some (true, false)) := by
  constructor
  · intro hatomic
    have herror : (addFirst { setflFails with fd := -1 }).1
        = .error (.runtime_error "Error: perf_event_open failed.") := rfl
    have hregistered : (addFirst { setflFails with fd := -1 }).2.1.all_events_.length = 1 :=
      rfl
    generalize hrun : addFirst { setflFails with fd := -1 } = r at herror hregistered
    obtain ⟨_, P', th'⟩ := r
    cases herror
    have hsame := hatomic _ _ _ _ _ _ _ _ _ _ encode_first hrun
    rw [hsame] at hregistered
    cases hregistered
  · decide +kernel

end AccessSampling
