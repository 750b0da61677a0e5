import AccessSampling.Ownership
import AccessSampling.Foundation.Simulation

/-!
# Threads do not disturb each other

The threads share the plugin: the list whose positions are the metric ids, the map of the event
buffers, and the lock.  Yet what a thread records is its own affair.  Take a run, and leave out
the steps of all threads but those with one id: what is left is a run as well, and in it the
threads with that id do the same, fill their buffer with the same entries, and have the same
values read out for their metrics.  Only the metric ids and the place of the buffer may differ.

* `Sampler.next_buffer` — the events and the handler of a thread do the same whichever buffer
  `event_data_` points to.
* `Task.Same` — the same thread, but for its buffer and the ids of its metrics.
* `Process.Part` — what is left of a process when one thread id is looked at alone.
* `Process.Part.step`, `Process.Part.other` — a step of the thread is the same step, and one of
  another thread is none.
* `threads_isolated` — the result.

Threads with one id are looked at together, since they share what the plugin keeps under that
id: a later one finds the buffer of an earlier one.  What other threads do only shows in the
numbers the plugin hands out: the position of a metric, and which buffer is allocated next.
The first is why `get_all_values` is compared under a bound: past 2^31 metrics an `int32_t`
does not lead to the position it was made from, and how many there are is up to all threads.
-/

namespace AccessSampling

open Foundation

variable {T : TraceEvents} {g : Geometry} {pfm : Pfm}

/-- The steps of the threads with one id. -/
def own (t : ThreadId) (es : List ProcessEvent) : List ProcessEvent :=
  es.filter fun e => e.tid = t

/-- What the buffer of a thread id has. -/
def Plugin.bufferOf (P : Plugin T) (t : ThreadId) : Option (List (Entry T)) :=
  (P.thread_event_buffers_.lookup t).map fun b => b.elim [] P.heap

/-! ### Another buffer -/

theorem Thread.event_open_set_event_buffer (th : Thread) (b : Option BufferPtr)
    (attr : PerfEventAttribute) (o : OpenOutcome) :
    (th.set_event_buffer b).event_open g attr o
      = ((th.event_open g attr o).1, (th.event_open g attr o).2.set_event_buffer b) := by
  have hopen : (th.set_event_buffer b).perf_event_open attr o.fd
      = (th.perf_event_open attr o.fd).set_event_buffer b := by
    unfold perf_event_open
    split
    case isTrue => rfl
    case isFalse => rfl
  dsimp only [event_open]
  rw [hopen]
  -- one goal for each call that can fail
  split_ifs <;> rfl

theorem Thread.produce_set_event_buffer {th th' : Thread} {fd : Fd} {r : Record} {accepted : Bool}
    (h : th.produce g fd r = some (accepted, th')) (b : Option BufferPtr) :
    (th.set_event_buffer b).produce g fd r = some (accepted, th'.set_event_buffer b) := by
  rw [Thread.produce] at h ⊢
  rw [show (th.set_event_buffer b).events fd = th.events fd from rfl]
  split at h
  case h_1 => cases h
  case h_2 =>
    split at h
    case isFalse => cases h
    case isTrue henabled =>
      split at h
      case h_1 =>
        cases h
        simp only [if_pos henabled]
      case h_2 =>
        cases h
        simp only [if_pos henabled]
        rfl

theorem Thread.sample_set_event_buffer {th th' : Thread} {fd : Fd} {e : SamplingEvent}
    (h : th.sample g fd e = some th') (b : Option BufferPtr) :
    (th.set_event_buffer b).sample g fd e = some (th'.set_event_buffer b) := by
  obtain ⟨⟨accepted, th₁⟩, hproduce, rfl⟩ := Option.map_eq_some_iff.mp h
  rw [Thread.sample, Thread.produce_set_event_buffer hproduce b, Option.map_some]
  rw [show (th.set_event_buffer b).events fd = th.events fd from rfl]
  dsimp only
  split
  case isTrue => rfl
  case isFalse => rfl

theorem Thread.deliver_set_event_buffer {th th' : Thread} (h : th.deliver = some th')
    (b : Option BufferPtr) :
    (th.set_event_buffer b).deliver = some (th'.set_event_buffer b) := by
  obtain ⟨fd, hpending, hhandler, hblocked, rfl⟩ := Thread.deliver_cases h
  have hpending' : (th.set_event_buffer b).pending = some fd := hpending
  have hhandler' : (th.set_event_buffer b).handler = none := hhandler
  rw [Thread.deliver, hpending', hhandler']
  exact if_neg (Bool.not_eq_true _ ▸ hblocked)

/-- A step of the handler does the same whatever `event_data_` is, but for where its entries
go. -/
theorem Sampler.handle_buffer {now : UInt64} {x x' : Sampler T} (h : x.handle g now = some x')
    (b : Option BufferPtr) (heap : Heap T) :
    Sampler.handle g now ⟨x.thread.set_event_buffer b, heap⟩
      = some ⟨x'.thread.set_event_buffer b, heap.extend b (x.drains g now)⟩ := by
  have hdraining := (Sampler.handle_heap h).2.2
  obtain ⟨fd, ph, hph, hcase⟩ := Sampler.handle_cases h
  have hph' : ∀ b, (x.thread.set_event_buffer b).handler = some (fd, ph) := fun _ => hph
  have hnone : ph ≠ .draining → x.drains g now = [] := by
    intro hne
    refine List.eq_nil_iff_forall_not_mem.mpr fun y hy => hne ?_
    cases hph.symm.trans (hdraining y hy)
    rfl
  cases ph with
  | entered =>
      rw [hnone (by decide), hcase]
      simp only [Sampler.handle, hph']
      rfl
  | draining =>
      obtain ⟨more, s₁, hnext, rfl⟩ := hcase
      obtain ⟨xs, -, -, -, hshadow⟩ := Sampler.processNext_buffer hnext
      have hdrains : x.drains g now = xs := by
        have hstep := hshadow (some 0) fun _ => []
        unfold Sampler.drains
        cases more with
        | true => simp [Sampler.handle, hph', hstep, Heap.extend_some]
        | false => simp [Sampler.handle, hph', hstep, Heap.extend_some, Sampler.goto]
      rw [hdrains]
      simp only [Sampler.handle, hph', hshadow b heap]
      cases more with
      | true => rfl
      | false => rfl
  | drained =>
      rw [hnone (by decide), hcase]
      simp only [Sampler.handle, hph']
      rfl
  | enabled =>
      rw [hnone (by decide), hcase]
      simp only [Sampler.handle, hph']
      rfl

/-- **The buffer makes no difference** to what the events and the handler of a thread do. -/
theorem Sampler.next_buffer {e : SamplerEvent} {x x' : Sampler T}
    (h : (samplerMachine g T).next x e = some x') (b : Option BufferPtr) (heap : Heap T) :
    (samplerMachine g T).next ⟨x.thread.set_event_buffer b, heap⟩ e
      = some ⟨x'.thread.set_event_buffer b, heap.extend b (drainedBy g x e)⟩ := by
  cases e with
  | sample fd e =>
      obtain ⟨th, hsample, rfl⟩ := Option.map_eq_some_iff.mp h
      exact congrArg (Option.map _) (Thread.sample_set_event_buffer hsample b)
  | deliver =>
      obtain ⟨th, hdeliver, rfl⟩ := Option.map_eq_some_iff.mp h
      exact congrArg (Option.map _) (Thread.deliver_set_event_buffer hdeliver b)
  | handle now => exact Sampler.handle_buffer h b heap

/-! ### The same thread -/

/-- The same registration, but for its place in `all_events_`. -/
structure Registration.Same (r r' : Registration) : Prop where
  tid : r'.tid = r.tid
  metric : r'.metric = r.metric
  event : r'.event = r.event

inductive Frame.Same : Frame → Frame → Prop where
  | encoded {metric event : List Char} {attr : PerfEventAttribute} :
      Same (.encoded metric event attr) (.encoded metric event attr)
  | registered {r r' : Registration} {attr : PerfEventAttribute} (hr : r.Same r') :
      Same (.registered r attr) (.registered r' attr)
  | enabling {r r' : Registration} {fd : Fd} {fds : List Fd} (hr : r.Same r') :
      Same (.enabling r fd fds) (.enabling r' fd fds)

/-- The same members, but for the buffer that `event_data_` points to, if any. -/
def Thread.Same (th th' : Thread) : Prop :=
  ∃ b, (b = none ↔ th.event_data_ = none) ∧ th' = th.set_event_buffer b

structure Task.Same (k k' : Task) : Prop where
  thread : k.thread.Same k'.thread
  call : Option.Rel Frame.Same k.call k'.call
  completed : k'.completed = k.completed

section Same

variable {th th' : Thread} {k k' : Task}

theorem Thread.Same.handler_eq (h : th.Same th') : th'.handler = th.handler := by
  obtain ⟨b, -, rfl⟩ := h
  rfl

theorem Thread.Same.enable_fd (h : th.Same th') (fd : Fd) :
    (th.enable_fd fd).Same (th'.enable_fd fd) := by
  obtain ⟨b, hb, rfl⟩ := h
  exact ⟨b, hb, rfl⟩

theorem Thread.Same.disable (h : th.Same th') : th.disable.Same th'.disable := by
  obtain ⟨b, hb, rfl⟩ := h
  exact ⟨b, hb, rfl⟩

/-- `event_open` does the same, and leaves the same behind. -/
theorem Thread.Same.event_open (h : th.Same th') (attr : PerfEventAttribute) (o : OpenOutcome) :
    (th'.event_open g attr o).1 = (th.event_open g attr o).1 ∧
      (th.event_open g attr o).2.Same (th'.event_open g attr o).2 := by
  obtain ⟨b, hb, rfl⟩ := h
  rw [Thread.event_open_set_event_buffer]
  have hdata : (th.event_open g attr o).2.event_data_ = th.event_data_ :=
    congrArg (fun x => x.2.event_data_) (th.event_open_set_event_buffer th.event_data_ attr o)
  exact ⟨rfl, b, hdata ▸ hb, rfl⟩

theorem Thread.Same.keys_eq (h : th.Same th') : th'.ring_buffers_.keys = th.ring_buffers_.keys := by
  obtain ⟨b, -, rfl⟩ := h
  rfl

theorem Task.Same.call_eq_none (h : k.Same k') (hcall : k.call = none) : k'.call = none := by
  have hrel := h.call
  rw [hcall] at hrel
  generalize k'.call = call at hrel
  cases hrel
  rfl

theorem Task.Same.call_eq_some (h : k.Same k') {f : Frame} (hcall : k.call = some f) :
    ∃ f', k'.call = some f' ∧ f.Same f' := by
  have hrel := h.call
  rw [hcall] at hrel
  generalize k'.call = call at hrel
  cases hrel with
  | some hf => exact ⟨_, rfl, hf⟩

end Same

/-! ### The buffer of a thread id -/

section Buffers

variable {P : Plugin T} {t u : ThreadId} {p q : BufferPtr}

theorem Plugin.bufferOf_of_lookup (hp : P.thread_event_buffers_.lookup t = some (some p)) :
    P.bufferOf t = some (P.heap p) := by
  rw [bufferOf, hp]
  rfl

theorem Plugin.bufferOf_eq_none_iff :
    P.bufferOf t = none ↔ t ∉ P.thread_event_buffers_ := by
  rw [bufferOf, Option.map_eq_none_iff, AList.lookup_eq_none]

/-- Entries are appended to the buffer of the thread id. -/
theorem Plugin.bufferOf_extend_self (hp : P.thread_event_buffers_.lookup t = some (some p))
    (xs : List (Entry T)) : ({ P with heap := P.heap.extend (some p) xs } : Plugin T).bufferOf t
      = (P.bufferOf t).map fun ys => ys ++ xs := by
  rw [bufferOf_of_lookup hp, Heap.extend_some]
  show (P.thread_event_buffers_.lookup t).map _ = some (P.heap p ++ xs)
  rw [hp]
  exact congrArg some (Function.update_self _ _ _)

/-- Entries are appended to another buffer. -/
theorem Plugin.bufferOf_extend_ne (hp : P.thread_event_buffers_.lookup t ≠ some (some p))
    (xs : List (Entry T)) : ({ P with heap := P.heap.extend (some p) xs } : Plugin T).bufferOf t
      = P.bufferOf t := by
  rw [Heap.extend_some]
  show (P.thread_event_buffers_.lookup t).map _ = (P.thread_event_buffers_.lookup t).map _
  cases hb : P.thread_event_buffers_.lookup t with
  | none => rfl
  | some b =>
      cases b with
      | none => rfl
      | some q =>
          have hne : q ≠ p := fun heq => hp (heq ▸ hb)
          exact congrArg some (Function.update_of_ne hne _ _)

end Buffers

section Steps

variable {s s' a a' : Process T} {e : ProcessEvent} {t u : ThreadId}

/-- The buffer that is allocated next is empty. -/
theorem Process.heap_allocated (howned : s.Owned) (hregistry : s.Registry) :
    s.plugin.heap s.plugin.allocated = [] := by
  refine List.eq_nil_iff_forall_not_mem.mpr fun x hx => ?_
  obtain ⟨r, -, hp⟩ := howned.entries _ x hx
  obtain ⟨p, hlt, heq⟩ := hregistry.allocated r.tid _ hp
  exact hlt.ne (Option.some.inj heq).symm

/-- **Nobody else touches the buffer of a thread id.** -/
theorem Process.Step.bufferOf_ne (h : Process.Step g pfm s e s') (howned : s.Owned)
    (hregistry : s.Registry) (hu : u ≠ e.tid) : s'.plugin.bufferOf u = s.plugin.bufferOf u := by
  cases h with
  | added => exact congrArg (Option.map _) (AList.lookup_insert_ne hu)
  | @sampled t k f x hk hnext =>
      show ({ s.plugin with heap := x.heap } : Plugin T).bufferOf u = _
      rw [(Sampler.next_heap hnext).1]
      cases hdata : k.thread.event_data_ with
      | none =>
          rw [Heap.extend_none]
      | some p =>
          refine Plugin.bufferOf_extend_ne (fun hp => hu ?_) _
          exact hregistry.injective u t _ hp (howned.buffer t k hk p hdata)
  | _ => rfl

/-- Which metrics the threads with one id have added, and the descriptors of their events. -/
def Process.added (s : Process T) (t : ThreadId) : List (Registration × Fd) :=
  s.returned.filter fun x => x.1.tid = t

theorem Process.Step.added_ne (h : Process.Step g pfm s e s') (hregistry : s.Registry)
    (hu : u ≠ e.tid) : s'.added u = s.added u := by
  cases h with
  | @returned t k r fd hk _ hcall =>
      have hr : s.CallOk t k.call := hregistry.calls t k hk
      rw [hcall] at hr
      have hne : ¬ r.tid = u := fun heq => hu (heq.symm.trans hr.1)
      show List.filter _ (s.returned ++ [(r, fd)]) = s.added u
      rw [List.filter_append, List.filter_cons_of_neg (by simpa using hne), List.filter_nil,
        List.append_nil]
      rfl
  | _ => rfl

theorem Process.idle_of_call {metric : List Char}
    (h : (processMachine g pfm T).next s (.call t metric) = some s') :
    ∃ k, s.threads t = some k ∧ k.thread.handler = none ∧ k.call = none := by
  obtain ⟨k, hready, h⟩ := Option.bind_eq_some_iff.mp h
  obtain ⟨hk, hhandler⟩ := Process.ready_eq_some hready
  refine ⟨k, hk, hhandler, ?_⟩
  split at h
  case h_1 hcall => exact hcall
  case h_2 => cases h

/-! ### One thread id alone -/

/-- What the metrics of a thread are, but for their ids. -/
def metrics (xs : List (Registration × Fd)) : List (List Char × List Char × Fd) :=
  xs.map fun x => (x.1.metric, x.1.event, x.2)

theorem metrics_concat (xs : List (Registration × Fd)) (r : Registration) (fd : Fd) :
    metrics (xs ++ [(r, fd)]) = metrics xs ++ [(r.metric, r.event, fd)] := List.map_append

/-- **What is left** of a process when the thread id `t` is looked at alone. -/
structure Process.Part (t : ThreadId) (s a : Process T) : Prop where
  threads : Option.Rel Task.Same (s.threads t) (a.threads t)
  buffer : a.plugin.bufferOf t = s.plugin.bufferOf t
  opened : ∀ fd, s.opened fd = none → a.opened fd = none
  added : metrics (a.added t) = metrics (s.added t)

namespace Process.Part

theorem init (t : ThreadId) : (Process.init T).Part t (.init T) where
  threads := .none
  buffer := rfl
  opened _ h := h
  added := rfl

/-- The same thread runs. -/
theorem task (h : s.Part t a) {k : Task} (hk : s.threads t = some k) :
    ∃ k', a.threads t = some k' ∧ k.Same k' := by
  have hrel := h.threads
  rw [hk] at hrel
  generalize a.threads t = j at hrel ⊢
  cases hrel with
  | some hsame => exact ⟨_, rfl, hsame⟩

/-- No thread runs. -/
theorem idle (h : s.Part t a) (hnone : s.threads t = none) : a.threads t = none := by
  have hrel := h.threads
  rw [hnone] at hrel
  generalize a.threads t = j at hrel ⊢
  cases hrel
  rfl

/-- A step of another thread. -/
theorem other (h : s.Part t a) (howned : s.Owned) (hregistry : s.Registry)
    (hstep : Process.Step g pfm s e s') (ht : t ≠ e.tid) : s'.Part t a where
  threads := by
    rw [hstep.threads_ne ht]
    exact h.threads
  buffer := h.buffer.trans (hstep.bufferOf_ne howned hregistry ht).symm
  opened fd hfd := by
    refine h.opened fd ?_
    by_contra hsome
    obtain ⟨r, hr⟩ := Option.ne_none_iff_exists'.mp hsome
    cases hfd.symm.trans (hstep.extends.opened fd r hr)
  added := by
    rw [hstep.added_ne hregistry ht]
    exact h.added

/-- A step that changes the members of the thread, and where it is. -/
theorem set (h : s.Part t a) {k k' : Task} (hsame : k.Same k') :
    (s.set t k).Part t (a.set t k') where
  threads := by
    rw [Process.set_threads_self, Process.set_threads_self]
    exact .some hsame
  buffer := h.buffer
  opened := h.opened
  added := h.added

theorem erase (h : s.Part t a) : (s.erase t).Part t (a.erase t) where
  threads := by
    rw [Process.erase_threads_self, Process.erase_threads_self]
    exact .none
  buffer := h.buffer
  opened := h.opened
  added := h.added

/-- A call of the thread returns. -/
theorem append (h : s.Part t a) {r r' : Registration} {fd : Fd} (htid : r.tid = t)
    (hr : r.Same r') : ({ s with returned := s.returned ++ [(r, fd)] } : Process T).Part t
      { a with returned := a.returned ++ [(r', fd)] } := by
  have hadded : ∀ (s : Process T) (r : Registration), r.tid = t →
      ({ s with returned := s.returned ++ [(r, fd)] } : Process T).added t
        = s.added t ++ [(r, fd)] := by
    intro s r htid
    rw [Process.added, List.filter_append, List.filter_cons_of_pos (by simpa using htid)]
    rfl
  refine { h with added := ?_ }
  rw [hadded s r htid, hadded a r' (hr.tid.trans htid), metrics_concat, metrics_concat, h.added,
    hr.metric, hr.event]

/-! ### Steps of the thread -/

/-- The locked section, when the map has the thread id. -/
theorem register_known (h : s.Part t a) {k : Task} {metric event : List Char}
    {attr : PerfEventAttribute} (hk : s.threads t = some k) (hhandler : k.thread.handler = none)
    (hcall : k.call = some (.encoded metric event attr))
    (hmem : t ∈ s.plugin.thread_event_buffers_) :
    ∃ a', (processMachine g pfm T).next a (.register t) = some a' ∧
      ({ s with plugin := { s.plugin with
          all_events_ := s.plugin.all_events_ ++ [(t, event)] } }.set t
        { k with call := some (.registered (s.registration t metric event) attr) }).Part t a' := by
  obtain ⟨k', ha, hsame⟩ := h.task hk
  obtain ⟨f, hcall', hf⟩ := hsame.call_eq_some hcall
  cases hf
  have hmem' : t ∈ a.plugin.thread_event_buffers_ := by
    by_contra hnot
    refine Plugin.bufferOf_eq_none_iff.mp ?_ hmem
    rw [← h.buffer, Plugin.bufferOf_eq_none_iff]
    exact hnot
  have hnext : (processMachine g pfm T).next a (.register t) = _ :=
    Process.next_register ha (hsame.thread.handler_eq.trans hhandler) hcall'
  rw [register_eq] at hnext
  simp only [if_pos hmem'] at hnext
  have hpart : ({ s with plugin := { s.plugin with
      all_events_ := s.plugin.all_events_ ++ [(t, event)] } } : Process T).Part t
      { a with plugin := { a.plugin with
        all_events_ := a.plugin.all_events_ ++ [(t, event)] } } := { h with }
  exact ⟨_, hnext,
    hpart.set ⟨hsame.thread, .some (.registered ⟨rfl, rfl, rfl⟩), hsame.completed⟩⟩

/-- The locked section, when the map does not have the thread id. -/
theorem register_unknown (h : s.Part t a) (howned : s.Owned) (hregistry : s.Registry)
    (howned' : a.Owned) (hregistry' : a.Registry) {k : Task} {metric event : List Char}
    {attr : PerfEventAttribute} (hk : s.threads t = some k) (hhandler : k.thread.handler = none)
    (hcall : k.call = some (.encoded metric event attr))
    (hmem : t ∉ s.plugin.thread_event_buffers_) :
    ∃ a', (processMachine g pfm T).next a (.register t) = some a' ∧
      ({ s with plugin := { s.plugin with
          all_events_ := s.plugin.all_events_ ++ [(t, event)]
          thread_event_buffers_ :=
            s.plugin.thread_event_buffers_.insert t (some s.plugin.allocated)
          allocated := s.plugin.allocated + 1 } }.set t
        { k with
          thread := k.thread.set_event_buffer (some s.plugin.allocated)
          call := some (.registered (s.registration t metric event) attr) }).Part t a' := by
  obtain ⟨k', ha, hsame⟩ := h.task hk
  obtain ⟨f, hcall', hf⟩ := hsame.call_eq_some hcall
  cases hf
  have hmem' : t ∉ a.plugin.thread_event_buffers_ := by
    rw [← Plugin.bufferOf_eq_none_iff, h.buffer, Plugin.bufferOf_eq_none_iff]
    exact hmem
  have hnext : (processMachine g pfm T).next a (.register t) = _ :=
    Process.next_register ha (hsame.thread.handler_eq.trans hhandler) hcall'
  rw [register_eq] at hnext
  simp only [if_neg hmem'] at hnext
  have hempty : ∀ P : Plugin T, P.heap P.allocated = [] →
      ({ P with
        all_events_ := P.all_events_ ++ [(t, event)]
        thread_event_buffers_ := P.thread_event_buffers_.insert t (some P.allocated)
        allocated := P.allocated + 1 } : Plugin T).bufferOf t = some [] := by
    intro P hheap
    rw [Plugin.bufferOf_of_lookup (AList.lookup_insert _)]
    exact congrArg some hheap
  have hpart : ({ s with plugin := { s.plugin with
      all_events_ := s.plugin.all_events_ ++ [(t, event)]
      thread_event_buffers_ := s.plugin.thread_event_buffers_.insert t (some s.plugin.allocated)
      allocated := s.plugin.allocated + 1 } } : Process T).Part t
      { a with plugin := { a.plugin with
        all_events_ := a.plugin.all_events_ ++ [(t, event)]
        thread_event_buffers_ := a.plugin.thread_event_buffers_.insert t (some a.plugin.allocated)
        allocated := a.plugin.allocated + 1 } } :=
    { h with
      buffer := (hempty a.plugin (Process.heap_allocated howned' hregistry')).trans
        (hempty s.plugin (Process.heap_allocated howned hregistry)).symm }
  refine ⟨_, hnext, hpart.set ⟨?_, .some (.registered ⟨rfl, rfl, rfl⟩), hsame.completed⟩⟩
  obtain ⟨b, -, hb⟩ := hsame.thread
  exact ⟨some a.plugin.allocated, by simp [Thread.set_event_buffer], by rw [hb]; rfl⟩

/-- A call of `event_open`, after which the thread is where `call` says. -/
theorem event_open (h : s.Part t a) {k k' : Task} {r r' : Registration}
    {attr : PerfEventAttribute} {o : OpenOutcome} {call call' : Option Frame} (hsame : k.Same k')
    (hcalls : Option.Rel Frame.Same call call') :
    ({ s with opened := s.openedBy o r }.set t
        { k with thread := (k.thread.event_open g attr o).2, call := call }).Part t
      ({ a with opened := a.openedBy o r' }.set t
        { k' with thread := (k'.thread.event_open g attr o).2, call := call' }) := by
  have hopened : ∀ fd, s.openedBy o r fd = none → a.openedBy o r' fd = none := by
    intro fd hfd
    by_cases hnonneg : 0 ≤ o.fd
    · rw [Process.openedBy, if_pos hnonneg] at hfd ⊢
      by_cases heq : fd = o.fd
      · rw [heq, Function.update_self] at hfd
        cases hfd
      · rw [Function.update_of_ne heq] at hfd ⊢
        exact h.opened fd hfd
    · rw [Process.openedBy, if_neg hnonneg] at hfd ⊢
      exact h.opened fd hfd
  have hpart : ({ s with opened := s.openedBy o r } : Process T).Part t
      { a with opened := a.openedBy o r' } := { h with opened := hopened }
  exact hpart.set ⟨(hsame.thread.event_open attr o).2, hcalls, hsame.completed⟩

/-- A step of the thread's events, or of its handler. -/
theorem sampling (h : s.Part t a) (howned : s.Owned) (howned' : a.Owned) {k : Task}
    {f : SamplerEvent} {x : Sampler T} (hk : s.threads t = some k)
    (hnext : (samplerMachine g T).next ⟨k.thread, s.plugin.heap⟩ f = some x) :
    ∃ a', (processMachine g pfm T).next a (.sampling t f) = some a' ∧
      ({ s with
        plugin := { s.plugin with heap := x.heap }
        drained := s.drained ++ drainedBy g ⟨k.thread, s.plugin.heap⟩ f }.set t
          { k with thread := x.thread }).Part t a' := by
  obtain ⟨k', ha, hsame⟩ := h.task hk
  obtain ⟨b, hb, hthread⟩ := hsame.thread
  obtain ⟨hheap, hdata, -⟩ := Sampler.next_heap hnext
  have hnext' := Sampler.next_buffer hnext b a.plugin.heap
  rw [← hthread] at hnext'
  have hdata' : k'.thread.event_data_ = b := congrArg Thread.event_data_ hthread
  generalize drainedBy g ⟨k.thread, s.plugin.heap⟩ f = xs at hheap hnext' ⊢
  have hbuffer : ({ a.plugin with heap := a.plugin.heap.extend b xs } : Plugin T).bufferOf t
      = ({ s.plugin with heap := x.heap } : Plugin T).bufferOf t := by
    rw [hheap]
    dsimp only
    cases hp : k.thread.event_data_ with
    | none =>
        rw [hb.mpr hp, Heap.extend_none, Heap.extend_none]
        exact h.buffer
    | some p =>
        obtain ⟨p', rfl⟩ := Option.ne_none_iff_exists'.mp
          (mt hb.mp (hp ▸ Option.some_ne_none p))
        rw [Plugin.bufferOf_extend_self (howned.buffer t k hk p hp),
          Plugin.bufferOf_extend_self (howned'.buffer t k' ha p' hdata'), h.buffer]
  have hpart : ({ s with
      plugin := { s.plugin with heap := x.heap }, drained := s.drained ++ xs } : Process T).Part t
      { a with
        plugin := { a.plugin with heap := a.plugin.heap.extend b xs }
        drained := a.drained ++ drainedBy g ⟨k'.thread, a.plugin.heap⟩ f } :=
    { h with buffer := hbuffer }
  refine ⟨_, Process.next_sampling ha hnext', hpart.set ⟨?_, hsame.call, hsame.completed⟩⟩
  exact ⟨b, hb.trans (by rw [hdata]), rfl⟩

/-- **A step of the thread is the same step**, when the thread is alone. -/
theorem step (h : s.Part e.tid a) (howned : s.Owned) (hregistry : s.Registry)
    (howned' : a.Owned) (hregistry' : a.Registry)
    (hnext : (processMachine g pfm T).next s e = some s') :
    ∃ a', (processMachine g pfm T).next a e = some a' ∧ s'.Part e.tid a' := by
  have hidle : ∀ {k k' : Task}, k.Same k' → k.thread.handler = none →
      k'.thread.handler = none :=
    fun hsame hhandler => hsame.thread.handler_eq.trans hhandler
  cases Process.step_of_next hnext with
  | start blocked hnone =>
      exact ⟨_, Process.next_start blocked (h.idle hnone),
        h.set ⟨⟨none, iff_of_true rfl rfl, rfl⟩, .none, rfl⟩⟩
  | exit hk hhandler hcall =>
      obtain ⟨k', ha, hsame⟩ := h.task hk
      exact ⟨_, Process.next_exit ha (hidle hsame hhandler) (hsame.call_eq_none hcall), h.erase⟩
  | refused _ hencode =>
      obtain ⟨k, hk, hhandler, hcall⟩ := Process.idle_of_call hnext
      obtain ⟨k', ha, hsame⟩ := h.task hk
      exact ⟨_, Process.next_call_error ha (hidle hsame hhandler) (hsame.call_eq_none hcall)
        hencode, h⟩
  | @called t k metric event attr hk hhandler hcall hencode =>
      obtain ⟨k', ha, hsame⟩ := h.task hk
      exact ⟨_, Process.next_call ha (hidle hsame hhandler) (hsame.call_eq_none hcall) hencode,
        h.set ⟨hsame.thread, .some .encoded, hsame.completed⟩⟩
  | known hk hhandler hcall hmem => exact h.register_known hk hhandler hcall hmem
  | added hk hhandler hcall hmem =>
      exact h.register_unknown howned hregistry howned' hregistry' hk hhandler hcall hmem
  | @failed t k r attr o ex hk hhandler hcall hfresh hopen =>
      obtain ⟨k', ha, hsame⟩ := h.task hk
      obtain ⟨f, hcall', hf⟩ := hsame.call_eq_some hcall
      cases hf with
      | registered hr =>
          exact ⟨_, Process.next_event_open_error ha (hidle hsame hhandler) hcall'
            (h.opened o.fd hfresh) ((hsame.thread.event_open attr o).1.trans hopen),
            h.event_open hsame .none⟩
  | @opened t k r attr o hk hhandler hcall hfresh hopen =>
      obtain ⟨k', ha, hsame⟩ := h.task hk
      obtain ⟨f, hcall', hf⟩ := hsame.call_eq_some hcall
      cases hf with
      | registered hr =>
          refine ⟨_, Process.next_event_open ha (hidle hsame hhandler) hcall'
            (h.opened o.fd hfresh) ((hsame.thread.event_open attr o).1.trans hopen), ?_⟩
          rw [(hsame.thread.event_open attr o).2.keys_eq]
          exact h.event_open hsame (.some (.enabling hr))
  | @enabled t k r fd x fds hk hhandler hcall =>
      obtain ⟨k', ha, hsame⟩ := h.task hk
      obtain ⟨f, hcall', hf⟩ := hsame.call_eq_some hcall
      cases hf with
      | enabling hr =>
          exact ⟨_, Process.next_enable ha (hidle hsame hhandler) hcall',
            h.set ⟨hsame.thread.enable_fd x, .some (.enabling hr), hsame.completed⟩⟩
  | @returned t k r fd hk hhandler hcall =>
      obtain ⟨k', ha, hsame⟩ := h.task hk
      obtain ⟨f, hcall', hf⟩ := hsame.call_eq_some hcall
      cases hf with
      | enabling hr =>
          have htid : s.CallOk t k.call := hregistry.calls t k hk
          rw [hcall] at htid
          exact ⟨_, Process.next_return ha (hidle hsame hhandler) hcall', (h.append htid.1 hr).set
            ⟨hsame.thread, .none, rfl⟩⟩
  | @stopped t k hk hhandler hcall =>
      obtain ⟨k', ha, hsame⟩ := h.task hk
      exact ⟨_, Process.next_stop ha (hidle hsame hhandler) (hsame.call_eq_none hcall),
        h.set ⟨hsame.thread.disable, hsame.call, hsame.completed⟩⟩
  | sampled hk hsampler => exact h.sampling howned howned' hk hsampler

end Process.Part

/-! ### The result -/

/-- **The steps of one thread id are a run.** -/
def isolation (g : Geometry) (pfm : Pfm) (T : TraceEvents) (t : ThreadId) :
    Simulation (processMachine g pfm T) (processMachine g pfm T) (.init T) (.init T)
      fun _ => True where
  rel es s fs a := fs = own t es ∧ s.Part t a
  init := ⟨rfl, .init t⟩
  step := by
    rintro es s fs a e s' hrun hrun' ⟨rfl, hpart⟩ - hnext
    have hown : own t (es ++ [e]) = own t es ++ own t [e] := List.filter_append _ _
    by_cases ht : e.tid = t
    · subst ht
      obtain ⟨a', hnext', hpart'⟩ := hpart.step (.of_exec hrun) (.of_exec hrun) (.of_exec hrun')
        (.of_exec hrun') hnext
      refine ⟨[e], a', (Machine.exec_singleton _ a e).trans hnext', ?_, hpart'⟩
      rw [hown, own, own, List.filter_cons_of_pos (by simp), List.filter_nil]
    · refine ⟨[], a, rfl, ?_, hpart.other (.of_exec hrun) (.of_exec hrun)
        (Process.step_of_next hnext) (Ne.symm ht)⟩
      rw [hown, own, own, List.filter_cons_of_neg (by simpa using ht), List.filter_nil]

/-- What is read out for the metrics of a thread id. -/
def readOuts (B : EventRingBuffer T) (buffer_size_ : ℕ) (s : Process T) (t : ThreadId) :
    List (List Char × Fd × ReadOut) :=
  (s.added t).map fun x => (x.1.metric, x.2, get_all_values B buffer_size_ s.plugin x.1.id)

/-- The values are those of the buffer, by the event of the metric. -/
theorem readOuts_eq (B : EventRingBuffer T) (buffer_size_ : ℕ) {es : List ProcessEvent}
    (hrun : (processMachine g pfm T).exec (.init T) es = some s)
    (hcalls : es.countP ProcessEvent.isCall < 2 ^ 31) (t : ThreadId) :
    readOuts B buffer_size_ s t = (metrics (s.added t)).map fun x => (x.1, x.2.2,
      .writes (valuesOf (T.accessTypeFromString x.2.1)
        (B.iterate buffer_size_ (((s.plugin.bufferOf t).getD []).map Entry.event)))) := by
  have hregistry : s.Registry := .of_exec hrun
  rw [readOuts, metrics, List.map_map]
  refine List.map_congr_left fun x hx => ?_
  obtain ⟨hmem, htid⟩ := List.mem_filter.mp hx
  obtain rfl : x.1.tid = t := by simpa using htid
  have hr := hregistry.returned x hmem
  obtain ⟨p, hp⟩ := hregistry.buffer _ (List.mem_of_getElem? hr.entry)
  have hindex := hr.index_lt.trans ((Process.length_le_calls hrun).trans_lt hcalls)
  rw [get_all_values_eq B buffer_size_ hr hindex hp, Plugin.bufferOf_of_lookup hp]
  rfl

/-- **Threads do not disturb each other.**  Leave out of a run all steps but those of the threads
with one id: these are a run as well.  In it the thread is where it was, with the same events,
rings and signals, its buffer has the same entries, and it has added the same metrics with the
same descriptors.  As long as the ids of the whole process fit an `int32_t`, `get_all_values`
finds the same for each of them: beyond that, an id leads to another position, or to none, and
where it leads depends on how many metrics the other threads have added. -/
theorem threads_isolated {es : List ProcessEvent}
    (hrun : (processMachine g pfm T).exec (.init T) es = some s) (t : ThreadId) :
    ∃ a, (processMachine g pfm T).exec (.init T) (own t es) = some a ∧
      Option.Rel Task.Same (s.threads t) (a.threads t) ∧
      a.plugin.bufferOf t = s.plugin.bufferOf t ∧
      metrics (a.added t) = metrics (s.added t) ∧
      ∀ (B : EventRingBuffer T) (buffer_size_ : ℕ), es.countP ProcessEvent.isCall < 2 ^ 31 →
        readOuts B buffer_size_ a t = readOuts B buffer_size_ s t := by
  obtain ⟨fs, a, hrun', rfl, hpart⟩ :=
    (isolation g pfm T t).exec (fun _ _ _ => trivial) trivial hrun
  refine ⟨a, hrun', hpart.threads, hpart.buffer, hpart.added, fun B buffer_size_ hcalls => ?_⟩
  have hcalls' : (own t es).countP ProcessEvent.isCall < 2 ^ 31 :=
    List.filter_sublist.countP_le.trans_lt hcalls
  rw [readOuts_eq B buffer_size_ hrun' hcalls', readOuts_eq B buffer_size_ hrun hcalls, hpart.added,
    hpart.buffer]

end Steps

set_option maxRecDepth 10000 in
/-- Two threads add a metric each, at the same time, and the first one takes a sample. -/
theorem threads_isolated_two_threads :
    ∃ s a : Process .perf,
      (processMachine .x86 .intel .perf).exec (.init .perf)
        (twoThreads ++ sampleSteps ⟨1⟩ 4 aLoad) = some s ∧
      (processMachine .x86 .intel .perf).exec (.init .perf)
        (own ⟨1⟩ (twoThreads ++ sampleSteps ⟨1⟩ 4 aLoad)) = some a ∧
      (s.plugin.bufferOf ⟨1⟩).map List.length = some 1 ∧
      a.plugin.bufferOf ⟨1⟩ = s.plugin.bufferOf ⟨1⟩ ∧
      ∀ (B : EventRingBuffer .perf) (buffer_size_ : ℕ),
        readOuts B buffer_size_ a ⟨1⟩ = readOuts B buffer_size_ s ⟨1⟩ := by
  have hlast : ((processMachine .x86 .intel .perf).exec (.init .perf)
      (twoThreads ++ sampleSteps ⟨1⟩ 4 aLoad)).map
        (fun s => (s.plugin.bufferOf ⟨1⟩).map List.length) = some (some 1) := by
    decide +kernel
  obtain ⟨s, hrun, hlength⟩ := Option.map_eq_some_iff.mp hlast
  obtain ⟨a, hrun', -, hbuffer, -, hreads⟩ := threads_isolated hrun ⟨1⟩
  exact ⟨s, a, hrun, hrun', hlength, hbuffer,
    fun B buffer_size_ => hreads B buffer_size_ (by decide)⟩

end AccessSampling
