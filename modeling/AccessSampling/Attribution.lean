import AccessSampling.Recording

/-!
# Samples of the type of their event

The events of a thread share one buffer, and an entry of the buffer does not say which
event it comes from; only its access type can be compared with that of a metric.  If
samples decode as the name of their event says, then so do the entries, wherever they have
been meanwhile: among the records of the event, in the ring, in the buffer.

* `Decodes`, `Attributable` — the condition on each step of a run: what a sample decodes as is
  up to the processor and to the trace library, and the plugin does not look at it.
* `Process.Attributed` — the invariant: what is drained from an event has the access
  type that the name of the event stands for.
* `Process.Opens` — the descriptor that a returned call stands for is the one it has opened.

That an event keeps its records (`Sampler.accepted_of_next`), and that a ring that has just
been opened is empty (`Sampler.Follows.event_open`), is used far beyond this module.
-/

namespace AccessSampling

open Foundation

section Sampler

variable {T : TraceEvents} {g : Geometry} {s s' : Sampler T} {p : BufferPtr} {fds : List Fd}

/-! ### One thread -/

/-- Only the thread's own buffer matters. -/
theorem Sampler.Follows.congr_heap (h : s.Follows g p fds) {heap : Heap T}
    (hheap : heap p = s.heap p) : (⟨s.thread, heap⟩ : Sampler T).Follows g p fds := by
  refine ⟨h.buffer, h.mem_rings, fun fd hfd => ?_, ?_⟩
  · obtain ⟨rb, ev, n, hat, hlog⟩ := h.rings fd hfd
    refine ⟨rb, ev, n, hat, ?_⟩
    show accesses fd (heap p) = _
    rw [hheap]
    exact hlog
  · show ∀ x ∈ heap p, x.fd ∈ fds
    rw [hheap]
    exact h.only

/-- **The buffer follows the rings** along samples, signals and handlers. -/
theorem Sampler.Follows.next_step (h : s.Follows g p fds) {e : SamplerEvent}
    (hnext : (samplerMachine g T).next s e = some s') : s'.Follows g p fds := by
  cases e with
  | sample fd e =>
      obtain ⟨th, hsample, rfl⟩ := Option.map_eq_some_iff.mp hnext
      obtain ⟨ev, hev, -, rfl | ⟨ev', -, hproduce, rfl⟩⟩ := Thread.sample_cases hsample
      · exact h
      · have hwf : WellFormed g s (.produce fd e.record) :=
          wellFormed_of_le e.laidOut_record e.size_record_le
        split
        case isTrue => exact (h.produce hwf hproduce).congr rfl rfl rfl
        case isFalse => exact h.produce hwf hproduce
  | deliver =>
      obtain ⟨th, hdeliver, rfl⟩ := Option.map_eq_some_iff.mp hnext
      obtain ⟨fd, -, -, -, rfl⟩ := Thread.deliver_cases hdeliver
      exact h.congr rfl rfl rfl
  | handle now =>
      obtain ⟨fd, ph, -, hcase⟩ := Sampler.handle_cases hnext
      cases ph with
      | entered =>
          subst hcase
          exact (h.modify fd (fun ev => { ev with enabled := false }) (fun _ => rfl)
            fun _ => rfl).congr rfl rfl rfl
      | draining =>
          obtain ⟨more, s₁, hround, rfl⟩ := hcase
          obtain ⟨rb, hrb, -⟩ := Option.bind_eq_some_iff.mp hround
          have hfd : fd ∈ fds :=
            (h.mem_rings fd).mp (AList.lookup_isSome.mp (Option.isSome_of_eq_some hrb))
          have hfollows := (h.next hfd hround).1
          cases more with
          | true => exact hfollows
          | false => exact hfollows.congr rfl rfl rfl
      | drained =>
          subst hcase
          exact (h.modify fd (fun ev => { ev with enabled := true }) (fun _ => rfl)
            fun _ => rfl).congr rfl rfl rfl
      | enabled =>
          subst hcase
          exact h.congr rfl rfl rfl

/-- The ring of a new descriptor is empty, and the buffer has nothing of it. -/
theorem Sampler.Follows.event_open (h : s.Follows g p fds) {attr : PerfEventAttribute}
    {o : OpenOutcome} (hring : o.fd ∉ s.thread.ring_buffers_) :
    (⟨(s.thread.event_open g attr o).2, s.heap⟩ : Sampler T).Follows g p
      (if o.mapped then o.fd :: fds else fds) := by
  have hnew : o.fd ∉ fds := mt (h.mem_rings o.fd).mpr hring
  have hother : ∀ x ∈ fds, ∃ rb ev n, (s.thread.event_open g attr o).2.At g x rb ev n ∧
      accesses x (s.heap p) = (ev.accepted.take n).filterMap (Record.access T) := by
    intro x hx
    obtain ⟨rb, ev, n, hat, hlog⟩ := h.rings x hx
    have hne : x ≠ o.fd := fun heq => hnew (heq ▸ hx)
    refine ⟨rb, ev, n, ⟨?_, ?_, hat.reading⟩, hlog⟩
    · rw [Thread.event_open_thread hring]
      show (if o.mapped then s.thread.ring_buffers_.insert o.fd (.new g)
        else s.thread.ring_buffers_).lookup x = some rb
      split
      case isTrue => exact (AList.lookup_insert_ne hne).trans hat.ring
      case isFalse => exact hat.ring
    · rw [Thread.events_event_open_ne hring hne]
      exact hat.event
  refine ⟨?_, fun x => ?_, fun x hx => ?_, fun x hx => ?_⟩
  · rw [Thread.event_open_thread hring]
    exact h.buffer
  · rw [Thread.mem_rings_event_open hring, h.mem_rings]
    by_cases hmapped : o.mapped = true
    · simp [hmapped, or_comm]
    · simp [hmapped]
  · by_cases hmapped : o.mapped = true
    · rw [if_pos hmapped, List.mem_cons] at hx
      rcases hx with rfl | hx
      · have hpos : 1 ≤ o.fd := by
          simp only [OpenOutcome.mapped, Bool.and_eq_true, decide_eq_true_eq] at hmapped
          exact hmapped.1
        refine ⟨.new g, o.event attr, 0, ⟨?_, ?_, ?_⟩, ?_⟩
        · rw [Thread.event_open_thread hring, hmapped]
          exact AList.lookup_insert _
        · exact Thread.events_event_open_self hring (le_trans (by decide) hpos)
        · exact Reading.new o.data (by simp [OpenOutcome.event, hmapped]) rfl
        · exact accesses_of_forall_ne fun x hx heq => hnew (heq ▸ h.only x hx)
      · exact hother x hx
    · rw [if_neg hmapped] at hx
      exact hother x hx
  · split
    case isTrue => exact List.mem_cons_of_mem _ (h.only x hx)
    case isFalse => exact h.only x hx

/-- An event that has been changed. -/
theorem Thread.events_modify_cases {th : Thread} {fd x : Fd} {f : PerfEvent → PerfEvent}
    {ev' : PerfEvent} (h : (th.modify fd f).events x = some ev') :
    ∃ ev, th.events x = some ev ∧ (ev' = ev ∨ x = fd ∧ ev' = f ev) := by
  by_cases hx : x = fd
  · subst hx
    rw [events_modify_self, Option.map_eq_some_iff] at h
    obtain ⟨ev, hev, rfl⟩ := h
    exact ⟨ev, hev, Or.inr ⟨rfl, rfl⟩⟩
  · rw [events_modify_ne _ _ _ hx] at h
    exact ⟨ev', h, Or.inl rfl⟩

/-- An event keeps its records when it is changed otherwise. -/
theorem Thread.accepted_modify {th : Thread} {fd x : Fd} {f : PerfEvent → PerfEvent}
    {ev' : PerfEvent} (hf : ∀ ev, (f ev).accepted = ev.accepted)
    (h : (th.modify fd f).events x = some ev') :
    ∃ ev, th.events x = some ev ∧ ev'.accepted = ev.accepted := by
  obtain ⟨ev, hev, rfl | ⟨-, rfl⟩⟩ := Thread.events_modify_cases h
  · exact ⟨_, hev, rfl⟩
  · exact ⟨ev, hev, hf ev⟩

/-- **An event keeps its records**, and a sample adds its own. -/
theorem Sampler.accepted_of_next {e : SamplerEvent}
    (h : (samplerMachine g T).next s e = some s') {fd : Fd} {ev' : PerfEvent}
    (hev' : s'.thread.events fd = some ev') :
    ∃ ev, s.thread.events fd = some ev ∧ (ev'.accepted = ev.accepted ∨
      ∃ e', e = .sample fd e' ∧ ev'.accepted = ev.accepted ++ [e'.record]) := by
  have hkept : ∀ {x : Fd} {f : PerfEvent → PerfEvent},
      (∀ ev, (f ev).accepted = ev.accepted) → (s.thread.modify x f).events fd = some ev' →
      ∃ ev, s.thread.events fd = some ev ∧ (ev'.accepted = ev.accepted ∨
        ∃ e', e = .sample fd e' ∧ ev'.accepted = ev.accepted ++ [e'.record]) := by
    intro x f hf hmodify
    obtain ⟨ev, hev, hsame⟩ := Thread.accepted_modify hf hmodify
    exact ⟨ev, hev, Or.inl hsame⟩
  cases e with
  | sample x e =>
      obtain ⟨th, hsample, rfl⟩ := Option.map_eq_some_iff.mp h
      obtain ⟨ev, hev, -, rfl | ⟨ev₁, hev₁, -, rfl⟩⟩ := Thread.sample_cases hsample
      · exact ⟨ev', hev', Or.inl rfl⟩
      · have hmodify : (s.thread.modify x fun _ => ev₁).events fd = some ev' := by
          split at hev'
          case isTrue => exact hev'
          case isFalse => exact hev'
        obtain ⟨ev₀, hev₀, rfl | ⟨rfl, rfl⟩⟩ := Thread.events_modify_cases hmodify
        · exact ⟨_, hev₀, Or.inl rfl⟩
        · cases hev₀.symm.trans hev
          obtain ⟨m, -, hproduce⟩ := Option.bind_eq_some_iff.mp hev₁
          obtain ⟨m', -, rfl⟩ := Option.map_eq_some_iff.mp hproduce
          exact ⟨_, hev, Or.inr ⟨e, rfl, rfl⟩⟩
  | deliver =>
      obtain ⟨th, hdeliver, rfl⟩ := Option.map_eq_some_iff.mp h
      obtain ⟨x, -, -, -, rfl⟩ := Thread.deliver_cases hdeliver
      exact ⟨ev', hev', Or.inl rfl⟩
  | handle now =>
      obtain ⟨x, ph, -, hcase⟩ := Sampler.handle_cases h
      cases ph with
      | entered =>
          subst hcase
          exact hkept (f := fun ev => { ev with enabled := false }) (fun _ => rfl) hev'
      | draining =>
          obtain ⟨more, s₁, hround, rfl⟩ := hcase
          obtain ⟨-, rb, m, hthread⟩ := Sampler.processNext_thread hround
          have hev₁ : s₁.thread.events fd = some ev' := by
            cases more with
            | true => exact hev'
            | false => exact hev'
          rw [hthread] at hev₁
          exact hkept (f := fun ev => { ev with mmap := some m }) (fun _ => rfl) hev₁
      | drained =>
          subst hcase
          exact hkept (f := fun ev => { ev with enabled := true }) (fun _ => rfl) hev'
      | enabled =>
          subst hcase
          exact ⟨ev', hev', Or.inl rfl⟩

end Sampler

section Attribution

variable {T : TraceEvents}

/-! ### The process -/

/-- The access type that the name of an event stands for. -/
def Registration.access_type (T : TraceEvents) (r : Registration) : T.AccessType :=
  T.accessTypeFromString r.event

/-- A sample decodes as the access type its event's name stands for. -/
def Decodes (s : Process T) : ProcessEvent → Prop
  | .sampling _ (.sample fd e) => ∀ r, s.opened fd = some r →
      T.accessTypeFromPerf (memOp e.data_src) = r.access_type T
  | _ => True

instance (s : Process T) (e : ProcessEvent) : Decidable (Decodes s e) :=
  match e with
  | .sampling _ (.sample fd e) => inferInstanceAs (Decidable (∀ r ∈ s.opened fd,
      T.accessTypeFromPerf (memOp e.data_src) = r.access_type T))
  | .sampling _ .deliver | .sampling _ (.handle _) => isTrue trivial
  | .start _ _ | .exit _ | .call _ _ | .register _ | .event_open _ _ | .enable _
  | .stop _ => isTrue trivial

/-- What holds of one thread: its buffer follows its rings, and its events have records
of their own access type. -/
structure Process.Typed (g : Geometry) (s : Process T) (th : Thread) : Prop where
  follows : ∀ p, th.event_data_ = some p →
    ∃ fds, Sampler.Follows g p fds ⟨th, s.plugin.heap⟩
  accepted : ∀ fd ev r, th.events fd = some ev → s.opened fd = some r →
    ∀ rec ∈ ev.accepted, ∀ a, rec.access T = some a → a.access_type = r.access_type T

/-- **The invariant of attribution.** -/
structure Process.Attributed (g : Geometry) (s : Process T) : Prop where
  recording : s.Recording
  threads : ∀ t k, s.threads t = some k → s.Typed g k.thread
  drained : ∀ x ∈ s.drained, ∀ r, s.opened x.fd = some r →
    x.event.access_type = r.access_type T

section Steps

variable {g : Geometry} {pfm : Pfm} {s s' : Process T} {e : ProcessEvent} {th : Thread}

namespace Process.Typed

/-- Nothing has changed for the thread. -/
theorem of_same (h : s.Typed g th)
    (hheap : ∀ p, th.event_data_ = some p → s'.plugin.heap p = s.plugin.heap p)
    (hopened : ∀ fd, th.Uses fd → s'.opened fd = s.opened fd) : s'.Typed g th where
  follows p hp := by
    obtain ⟨fds, hfds⟩ := h.follows p hp
    exact ⟨fds, hfds.congr_heap (hheap p hp)⟩
  accepted fd ev r hev hr := by
    rw [hopened fd (Thread.uses_of_event hev)] at hr
    exact h.accepted fd ev r hev hr

theorem new (blocked : Bool) : s.Typed g { Thread.new with blocked := blocked } where
  follows p hp := by cases hp
  accepted fd ev r hev := by cases hev

/-- A thread without descriptors has been given an empty buffer. -/
theorem set_event_buffer (p : BufferPtr) (huses : ∀ fd, ¬ th.Uses fd)
    (hempty : s.plugin.heap p = []) : s.Typed g (th.set_event_buffer (some p)) where
  follows q hq := by
    cases hq
    refine ⟨[], rfl, fun fd => ?_, fun fd hfd => absurd hfd List.not_mem_nil, ?_⟩
    · exact iff_of_false (fun hmem => huses fd (Or.inl hmem)) List.not_mem_nil
    · show ∀ x ∈ s.plugin.heap p, x.fd ∈ []
      rw [hempty]
      exact fun x hx => absurd hx List.not_mem_nil
  accepted fd ev r hev := by
    have hev' : th.events fd = some ev := hev
    exact absurd (Thread.uses_of_event hev') (huses fd)

theorem enable_fd (h : s.Typed g th) (x : Fd) : s.Typed g (th.enable_fd x) where
  follows p hp := by
    obtain ⟨fds, hfds⟩ := h.follows p hp
    exact ⟨fds, hfds.modify x (fun ev => { ev with enabled := true }) (fun _ => rfl)
      fun _ => rfl⟩
  accepted fd ev r hev hr rec hrec := by
    obtain ⟨ev₀, hev₀, hsame⟩ :=
      Thread.accepted_modify (f := fun ev => { ev with enabled := true }) (fun _ => rfl) hev
    exact h.accepted fd ev₀ r hev₀ hr rec (hsame ▸ hrec)

theorem disable (h : s.Typed g th) : s.Typed g th.disable where
  follows p hp := by
    obtain ⟨fds, hfds⟩ := h.follows p hp
    exact ⟨fds, hfds.congr rfl rfl rfl⟩
  accepted := h.accepted

/-- The new event has no records. -/
theorem event_open (h : s.Typed g th) {attr : PerfEventAttribute} {o : OpenOutcome}
    (hunused : ¬ th.Uses o.fd) (hheap : s'.plugin.heap = s.plugin.heap)
    (hother : ∀ fd, fd ≠ o.fd → s'.opened fd = s.opened fd) :
    s'.Typed g (th.event_open g attr o).2 := by
  have hring : o.fd ∉ th.ring_buffers_ := fun hmem => hunused (Or.inl hmem)
  refine ⟨fun p hp => ?_, fun fd ev r hev hr rec hrec => ?_⟩
  · rw [Thread.event_open_thread hring] at hp
    obtain ⟨fds, hfds⟩ := h.follows p hp
    rw [hheap]
    exact ⟨_, hfds.event_open hring⟩
  · by_cases hfd : fd = o.fd
    · subst hfd
      by_cases hnonneg : 0 ≤ o.fd
      · rw [Thread.events_event_open_self hring hnonneg] at hev
        cases hev
        cases hrec
      · rw [Thread.event_open_thread hring, if_neg hnonneg] at hev
        have hev' : th.events o.fd = some ev := hev
        exact absurd (Thread.uses_of_event hev') hunused
    · rw [Thread.events_event_open_ne hring hfd] at hev
      exact h.accepted fd ev r hev ((hother fd hfd).symm.trans hr) rec hrec

/-- **A step of the thread's events and handler.** -/
theorem next (h : s.Typed g th) {e : SamplerEvent} {x : Sampler T}
    (hnext : (samplerMachine g T).next ⟨th, s.plugin.heap⟩ e = some x)
    (hdecodes : ∀ fd e', e = .sample fd e' → ∀ r, s.opened fd = some r →
      T.accessTypeFromPerf (memOp e'.data_src) = r.access_type T)
    (hheap : s'.plugin.heap = x.heap) (hopened : s'.opened = s.opened) :
    s'.Typed g x.thread where
  follows p hp := by
    obtain ⟨-, hdata, -⟩ := Sampler.next_heap hnext
    obtain ⟨fds, hfds⟩ := h.follows p (hdata ▸ hp)
    rw [hheap]
    exact ⟨fds, hfds.next_step hnext⟩
  accepted fd ev' r hev' hr rec hrec a ha := by
    rw [hopened] at hr
    obtain ⟨ev, hev, hsame | ⟨e', rfl, hadded⟩⟩ := Sampler.accepted_of_next hnext hev'
    · exact h.accepted fd ev r hev hr rec (hsame ▸ hrec) a ha
    · rw [hadded, List.mem_append] at hrec
      rcases hrec with hrec | hrec
      · exact h.accepted fd ev r hev hr rec hrec a ha
      · cases List.mem_singleton.mp hrec
        rw [SamplingEvent.access_record] at ha
        split at ha
        case isTrue =>
          cases ha
          exact hdecodes fd e' rfl r hr
        case isFalse => cases ha

/-- **What a buffer says of an event has the access type of the event.** -/
theorem of_mem_heap (h : s.Typed g th) {p : BufferPtr} (hp : th.event_data_ = some p)
    {x : Entry T} (hx : x ∈ s.plugin.heap p) {r : Registration}
    (hr : s.opened x.fd = some r) : x.event.access_type = r.access_type T := by
  obtain ⟨fds, hfds⟩ := h.follows p hp
  obtain ⟨rb, ev, n, hat, hlog⟩ := hfds.rings x.fd (hfds.only x hx)
  have hmem : x.event.toAccess ∈ accesses x.fd (s.plugin.heap p) := by
    rw [accesses, List.mem_map]
    exact ⟨x, List.mem_filter.mpr ⟨hx, by simp⟩, rfl⟩
  rw [show accesses x.fd (s.plugin.heap p) = _ from hlog, List.mem_filterMap] at hmem
  obtain ⟨rec, hrec, haccess⟩ := hmem
  exact h.accepted x.fd ev r hat.event hr rec (List.mem_of_mem_take hrec) _ haccess

end Process.Typed

/-- The conditions on a step: first metrics have new thread ids, and samples decode as
their event says. -/
def Attributable (s : Process T) (e : ProcessEvent) : Prop := OwnId s e ∧ Decodes s e

instance (s : Process T) (e : ProcessEvent) : Decidable (Attributable s e) :=
  inferInstanceAs (Decidable (OwnId s e ∧ Decodes s e))

namespace Process.Attributed

theorem init (g : Geometry) (T : TraceEvents) : (Process.init T).Attributed g where
  recording := .init T
  threads t k hk := by cases hk
  drained x hx := by cases hx

/-- A step by which nothing is drained, and no descriptor opened. -/
theorem of_same (h : s.Attributed g) (hrecording : s'.Recording)
    (hheap : s'.plugin.heap = s.plugin.heap) (hopened : s'.opened = s.opened)
    (hdrained : s'.drained = s.drained)
    (hthreads : ∀ t k, s'.threads t = some k → s.Typed g k.thread) : s'.Attributed g where
  recording := hrecording
  threads t k hk := (hthreads t k hk).of_same (fun _ _ => by rw [hheap])
    fun _ _ => by rw [hopened]
  drained := by
    rw [hdrained, hopened]
    exact h.drained

/-- `event_open`, whether it fails or not. -/
theorem of_event_open (h : s.Attributed g) {t : ThreadId} {k k' : Task} {r : Registration}
    {attr : PerfEventAttribute} {o : OpenOutcome}
    (hrecording : ({ s with opened := s.openedBy o r }.set t k').Recording)
    (hk : s.threads t = some k) (hfresh : s.opened o.fd = none)
    (hthread : k'.thread = (k.thread.event_open g attr o).2) :
    ({ s with opened := s.openedBy o r }.set t k').Attributed g := by
  -- no thread has to do with the new descriptor yet
  have hunused : ∀ u j, s.threads u = some j → ¬ j.thread.Uses o.fd := by
    intro u j hu huses
    obtain ⟨r', hr', -⟩ := (h.recording.tasks u j hu).uses o.fd huses
    rw [hfresh] at hr'
    cases hr'
  have hother : ∀ fd, fd ≠ o.fd → s.openedBy o r fd = s.opened fd := by
    intro fd hfd
    unfold Process.openedBy
    split
    case isTrue => exact Function.update_of_ne hfd _ _
    case isFalse => rfl
  refine ⟨hrecording, Process.forall_set (fun u j hu => ?_) ?_, fun x hx r' hr' => ?_⟩
  · refine (h.threads u j hu).of_same (fun _ _ => rfl) fun fd huses => ?_
    exact hother fd fun heq => hunused u j hu (heq ▸ huses)
  · rw [hthread]
    exact (h.threads t k hk).event_open (hunused t k hk) rfl hother
  · obtain ⟨r₀, hr₀⟩ := Option.ne_none_iff_exists'.mp (h.recording.opened x hx)
    have hne : x.fd ≠ o.fd := fun heq => by
      rw [← heq, hr₀] at hfresh
      cases hfresh
    exact h.drained x hx r' ((hother x.fd hne).symm.trans hr')

/-- **What a handler drains has the access type of its event.** -/
theorem of_sampled (h : s.Attributed g) {t : ThreadId} {k : Task} {e : SamplerEvent}
    {x : Sampler T} (hrecording : s'.Recording) (hk : s.threads t = some k)
    (hnext : (samplerMachine g T).next ⟨k.thread, s.plugin.heap⟩ e = some x)
    (hdecodes : ∀ fd e', e = .sample fd e' → ∀ r, s.opened fd = some r →
      T.accessTypeFromPerf (memOp e'.data_src) = r.access_type T)
    (hheap : s'.plugin.heap = x.heap) (hopened : s'.opened = s.opened)
    (hdrained : s'.drained = s.drained ++ drainedBy g ⟨k.thread, s.plugin.heap⟩ e)
    (hthreads : s'.threads = Function.update s.threads t (some { k with thread := x.thread })) :
    s'.Attributed g := by
  obtain ⟨hextend, hdata, hfds⟩ := Sampler.next_heap hnext
  have hok := h.recording.tasks t k hk
  have htyped : s'.Typed g x.thread := (h.threads t k hk).next hnext hdecodes hheap hopened
  refine ⟨hrecording, fun u j hu => ?_, fun y hy r hr => ?_⟩
  · rw [hthreads] at hu
    by_cases hut : u = t
    · subst hut
      rw [Function.update_self] at hu
      cases hu
      exact htyped
    · rw [Function.update_of_ne hut] at hu
      refine (h.threads u j hu).of_same (fun q hq => ?_) fun _ _ => by rw [hopened]
      -- another thread has another buffer
      have hqu := (h.recording.tasks u j hu).buffer q hq
      rw [hheap, hextend]
      cases hp : k.thread.event_data_ with
      | none => rw [Heap.extend_none]
      | some p =>
          have hne : q ≠ p := fun heq =>
            hut (h.recording.registry.injective u t _ hqu (heq ▸ hok.buffer p hp))
          rw [Heap.extend_some, Function.update_of_ne hne]
  · rw [hdrained, List.mem_append] at hy
    rcases hy with hy | hy
    · exact h.drained y hy r (hopened ▸ hr)
    · -- it is in the buffer of the thread
      have huses : k.thread.Uses y.fd := Or.inr (Or.inr (Or.inr ⟨_, hfds y hy⟩))
      obtain ⟨p, hp⟩ := Option.ne_none_iff_exists'.mp
        (hok.registered (Or.inr (Or.inr ⟨y.fd, huses⟩)))
      refine htyped.of_mem_heap (hdata.trans hp) ?_ hr
      rw [hheap, hextend, hp, Heap.extend_some, Function.update_self]
      exact List.mem_append_right _ hy

theorem step (h : s.Attributed g) (hcond : Attributable s e)
    (hstep : Process.Step g pfm s e s') : s'.Attributed g := by
  have hrecording := h.recording.step hcond.1 hstep
  cases hstep with
  | start blocked hnone =>
      exact h.of_same hrecording rfl rfl rfl (Process.forall_set h.threads (.new blocked))
  | exit => exact h.of_same hrecording rfl rfl rfl (Process.forall_erase h.threads)
  | refused => exact h
  | @called t k metric event attr hk =>
      exact h.of_same hrecording rfl rfl rfl (Process.forall_set h.threads (h.threads t k hk))
  | @known t k metric event attr hk =>
      exact h.of_same hrecording rfl rfl rfl (Process.forall_set h.threads (h.threads t k hk))
  | @added t k metric event attr hk hhandler hcall hmem =>
      have hok := h.recording.tasks t k hk
      have hunused : ∀ fd, ¬ k.thread.Uses fd := by
        intro fd huses
        obtain ⟨p, hp⟩ := Option.ne_none_iff_exists'.mp
          (hok.registered (Or.inr (Or.inr ⟨fd, huses⟩)))
        exact hmem (AList.lookup_isSome.mp (Option.isSome_of_eq_some (hok.buffer p hp)))
      exact h.of_same hrecording rfl rfl rfl (Process.forall_set h.threads
        (.set_event_buffer _ hunused (h.recording.unused _ le_rfl)))
  | failed hk hhandler hcall hfresh => exact h.of_event_open hrecording hk hfresh rfl
  | opened hk hhandler hcall hfresh => exact h.of_event_open hrecording hk hfresh rfl
  | @enabled t k r fd x fds hk =>
      exact h.of_same hrecording rfl rfl rfl
        (Process.forall_set h.threads ((h.threads t k hk).enable_fd x))
  | @returned t k r fd hk =>
      exact h.of_same hrecording rfl rfl rfl (Process.forall_set h.threads (h.threads t k hk))
  | @stopped t k hk =>
      exact h.of_same hrecording rfl rfl rfl
        (Process.forall_set h.threads (h.threads t k hk).disable)
  | @sampled t k e x hk hnext =>
      refine h.of_sampled hrecording hk hnext (fun fd e' he r hr => ?_) rfl rfl rfl rfl
      subst he
      exact hcond.2 r hr

theorem of_exec {es : List ProcessEvent}
    (hcond : (processMachine g pfm T).Along Attributable (.init T) es)
    (hrun : (processMachine g pfm T).exec (.init T) es = some s) : s.Attributed g :=
  (processMachine g pfm T).exec_invariant (I := Process.Attributed g)
    (fun _ _ _ h hcond hnext => h.step hcond (Process.step_of_next hnext)) (.init g T) hcond hrun

end Process.Attributed

/-! ### Which call has opened a descriptor -/

/-- A call in the loop of `enable ()` has opened its descriptor. -/
def Process.CallOpens (s : Process T) : Option Frame → Prop
  | some (.enabling r fd _) => s.opened fd = some r
  | _ => True

/-- The descriptors of the calls that have returned, and of those about to. -/
structure Process.Opens (s : Process T) : Prop where
  calls : ∀ t k, s.threads t = some k → s.CallOpens k.call
  returned : ∀ x ∈ s.returned, s.opened x.2 = some x.1

theorem Process.CallOpens.of_extends {call : Option Frame} (h : s.CallOpens call)
    (hext : s.Extends s') : s'.CallOpens call := by
  cases call with
  | none => trivial
  | some f =>
      cases f with
      | enabling r fd fds => exact hext.opened fd r h
      | encoded => trivial
      | registered => trivial

/-- `event_open` returns only with a descriptor. -/
theorem Thread.pos_of_event_open {attr : PerfEventAttribute} {o : OpenOutcome}
    (h : (th.event_open g attr o).1 = .ok ()) : 1 ≤ o.fd := by
  by_contra hneg
  have hlt : o.fd < 1 := not_le.mp hneg
  simp only [Thread.event_open, if_pos hlt] at h
  cases h

namespace Process.Opens

theorem init (T : TraceEvents) : (Process.init T).Opens where
  calls t k hk := by cases hk
  returned x hx := by cases hx

/-- A step by which no call returns. -/
theorem of_same (h : s.Opens) (hext : s.Extends s') (hreturned : s'.returned = s.returned)
    (hcalls : ∀ t k, s'.threads t = some k → s.CallOpens k.call ∨ s'.CallOpens k.call) :
    s'.Opens where
  calls t k hk := (hcalls t k hk).elim (fun hcall => hcall.of_extends hext) id
  returned x hx := hext.opened _ _ (h.returned x (hreturned ▸ hx))

theorem step (h : s.Opens) (hstep : Process.Step g pfm s e s') : s'.Opens := by
  have hext := hstep.extends
  have hcalls : ∀ t k, s.threads t = some k → s.CallOpens k.call ∨ s'.CallOpens k.call :=
    fun t k hk => Or.inl (h.calls t k hk)
  cases hstep with
  | start => exact h.of_same hext rfl (Process.forall_set hcalls (Or.inl trivial))
  | exit => exact h.of_same hext rfl (Process.forall_erase hcalls)
  | refused => exact h
  | called => exact h.of_same hext rfl (Process.forall_set hcalls (Or.inl trivial))
  | known => exact h.of_same hext rfl (Process.forall_set hcalls (Or.inl trivial))
  | added => exact h.of_same hext rfl (Process.forall_set hcalls (Or.inl trivial))
  | failed => exact h.of_same hext rfl (Process.forall_set hcalls (Or.inl trivial))
  | @opened t k r attr o hk hhandler hcall hfresh hopen =>
      refine h.of_same hext rfl (Process.forall_set hcalls (Or.inr ?_))
      have hnonneg : 0 ≤ o.fd := le_trans (by decide) (Thread.pos_of_event_open hopen)
      show s.openedBy o r o.fd = some r
      rw [Process.openedBy, if_pos hnonneg, Function.update_self]
  | @enabled t k r fd x fds hk hhandler hcall =>
      have hopened : s.CallOpens k.call := h.calls t k hk
      rw [hcall] at hopened
      exact h.of_same hext rfl (Process.forall_set hcalls (Or.inl hopened))
  | @returned t k r fd hk hhandler hcall =>
      have hopened : s.CallOpens k.call := h.calls t k hk
      rw [hcall] at hopened
      refine ⟨Process.forall_set h.calls trivial, fun x hx => ?_⟩
      rcases List.mem_append.mp hx with hx | hx
      · exact h.returned x hx
      · cases List.mem_singleton.mp hx
        exact hopened
  | @stopped t k hk =>
      exact h.of_same hext rfl (Process.forall_set hcalls (Or.inl (h.calls t k hk)))
  | @sampled t k e x hk =>
      exact h.of_same hext rfl (Process.forall_set hcalls (Or.inl (h.calls t k hk)))

theorem of_exec {es : List ProcessEvent}
    (h : (processMachine g pfm T).exec (.init T) es = some s) : s.Opens :=
  (processMachine g pfm T).exec_preserves
    (fun _ _ _ hinv hnext => hinv.step (Process.step_of_next hnext)) (.init T) h

end Process.Opens

end Steps

end Attribution

end AccessSampling
