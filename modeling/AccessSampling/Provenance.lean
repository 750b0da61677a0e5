import AccessSampling.Attribution
import AccessSampling.Foundation.Simulation
import AccessSampling.Ownership

/-!
# Where the entries of a buffer come from

A sample of a run is dropped by the kernel when its ring is full, waits in the ring, or has
been drained; and what is drained is in the buffer of its thread id, or nowhere if the thread
has none.

* `Sampler.handle_draining` — what a step of the handler drains.
* `Thread.Accounts` — what has been drained of a thread's events, out of what they have sampled.
* `Process.Faithful` — the same of every descriptor, whether its thread still runs or not.
* `recorded_sublist` — a buffer has nothing but samples of its thread id, each at most once and
  in order.
* `accepted_recorded` — no sample that the kernel has accepted is lost between its ring and its
  buffer.

The two results look at a run from its two ends, and share the condition of `processMachine`
that **the records are samples**.  With other records among them a ring could be read at wrong
addresses (`EventCopy`), and an entry could be of no sample at all.

`recorded_sublist` asks for nothing else, and compares what a buffer has with the samples that
were *taken*: some may have been dropped, by a full ring, before the handler came.
`accepted_recorded` compares it with what the kernel has *accepted*, and leaves no gap.  It asks
for an event that sends signals, since a failed `event_open` may leave one behind that does
not; its ring is never drained.
-/

namespace AccessSampling

open Foundation

variable {T : TraceEvents} {g : Geometry} {pfm : Pfm} {s s' : Process T} {e : ProcessEvent}

/-! ### What a handler drains -/

section Handler

variable {x x' : Sampler T} {fd : Fd} {rb : PerfRingBuffer} {ev : PerfEvent} {n : ℕ}

/-- What the step of a handler comes to that has a record to read. -/
theorem Sampler.handle_behind (now : UInt64) (hat : x.thread.At g fd rb ev n)
    (hph : x.thread.handler = some (fd, .draining)) (hlt : n < ev.accepted.length) :
    ∃ th rb' m', x.handle g now = some ⟨th, x.heap.extend x.thread.event_data_
        ((ev.accepted[n]).entries T now fd)⟩ ∧
      th.At g fd rb' { ev with mmap := some m' } (n + 1) ∧ x.thread.SameBut fd th := by
  obtain ⟨th, rb', m', hnext, hat', hsame⟩ := processNext_behind now hat hlt
  refine ⟨th, rb', m', ?_, hat', hsame⟩
  simp only [Sampler.handle, hph, hnext, Option.map_some, if_true]

/-- What the step of a handler comes to that has read everything. -/
theorem Sampler.handle_caught (now : UInt64) (hat : x.thread.At g fd rb ev n)
    (hph : x.thread.handler = some (fd, .draining)) (hall : n = ev.accepted.length) :
    ∃ th m', x.handle g now = some ⟨{ th with handler := some (fd, .drained) }, x.heap⟩ ∧
      th.At g fd rb { ev with mmap := some m' } n ∧ x.thread.SameBut fd th := by
  subst hall
  obtain ⟨th, m', hnext, hat', hsame, -⟩ := processNext_caught now hat
  refine ⟨th, m', ?_, hat', hsame⟩
  simp only [Sampler.handle, hph, hnext, Option.map_some]
  rfl

/-- **A step of the loop** reads the next record and drains its access, or finds that there is
none. -/
theorem Sampler.handle_draining {now : UInt64} (hat : x.thread.At g fd rb ev n)
    (hph : x.thread.handler = some (fd, .draining)) (h : x.handle g now = some x') :
    ∃ rb' m' n', x'.thread.At g fd rb' { ev with mmap := some m' } n' ∧
      (∀ y ≠ fd, x'.thread.ring_buffers_.lookup y = x.thread.ring_buffers_.lookup y ∧
        x'.thread.events y = x.thread.events y) ∧
      ((∃ hlt : n < ev.accepted.length, n' = n + 1 ∧ x'.thread.handler = some (fd, .draining) ∧
          x.drains g now = (ev.accepted[n]).entries T now fd) ∨
        (n' = n ∧ n = ev.accepted.length ∧ x'.thread.handler = some (fd, .drained) ∧
          x.drains g now = [])) := by
  have hat₀ : (x.thread.set_event_buffer (some 0)).At g fd rb ev n :=
    ⟨hat.ring, hat.event, hat.reading⟩
  rcases Nat.eq_or_lt_of_le hat.reading.le with hall | hlt
  · obtain ⟨th, m', hstep, hat', hsame⟩ := Sampler.handle_caught now hat hph hall
    cases hstep.symm.trans h
    refine ⟨rb, m', n, ⟨hat'.ring, hat'.event, hat'.reading⟩,
      fun y hy => ⟨hsame.rings y hy, hsame.events y hy⟩, Or.inr ⟨rfl, hall, rfl, ?_⟩⟩
    obtain ⟨th₀, m₀, hshadow, -⟩ := Sampler.handle_caught (T := T)
      (x := ⟨x.thread.set_event_buffer (some 0), fun _ => []⟩) now hat₀ hph hall
    rw [Sampler.drains, hshadow]
  · obtain ⟨th, rb', m', hstep, hat', hsame⟩ := Sampler.handle_behind now hat hph hlt
    cases hstep.symm.trans h
    refine ⟨rb', m', n + 1, hat', fun y hy => ⟨hsame.rings y hy, hsame.events y hy⟩,
      Or.inl ⟨hlt, rfl, hsame.handler.trans hph, ?_⟩⟩
    obtain ⟨th₀, rb₀, m₀, hshadow, -⟩ := Sampler.handle_behind (T := T)
      (x := ⟨x.thread.set_event_buffer (some 0), fun _ => []⟩) now hat₀ hph hlt
    rw [Sampler.drains, hshadow]
    show Heap.extend (fun _ => []) (some 0) _ 0 = _
    rw [Heap.extend_some, Function.update_self, List.nil_append]

end Handler

/-! ### What has been drained of a descriptor -/

/-- Every sample of the run that an event has taken, recorded or not. -/
def samplesOf (es : List ProcessEvent) (fd : Fd) : List SamplingEvent :=
  es.filterMap fun
    | .sampling _ (.sample x e) => if x = fd then some e else none
    | _ => none

theorem samplesOf_concat (es : List ProcessEvent) (e : ProcessEvent) (fd : Fd) :
    samplesOf (es ++ [e]) fd = samplesOf es fd ++ samplesOf [e] fd := List.filterMap_append

theorem samplesOf_sublist (es : List ProcessEvent) (e : ProcessEvent) (fd : Fd) :
    (samplesOf es fd).Sublist (samplesOf (es ++ [e]) fd) := by
  rw [samplesOf_concat]
  exact List.sublist_append_left _ _

/-- The accesses that samples are about. -/
def sampledAccesses (T : TraceEvents) (samples : List SamplingEvent) : List (Access T) :=
  samples.filterMap fun e => e.record.access T

theorem sampledAccesses_eq (samples : List SamplingEvent) : sampledAccesses T samples
    = (samples.map SamplingEvent.record).filterMap (Record.access T) := by
  simp only [sampledAccesses, List.filterMap_map, Function.comp_def]

/-- The records of each event are among its samples, and of an event that sends signals the
first records have been drained, in order. -/
structure Thread.Accounts (g : Geometry) (xs : List (Entry T))
    (samples : Fd → List SamplingEvent) (th : Thread) : Prop where
  accepted : ∀ fd ev, th.events fd = some ev →
    ev.accepted.Sublist ((samples fd).map SamplingEvent.record)
  read : ∀ fd ev, th.events fd = some ev → ev.notifies = true →
    ∃ rb n, th.At g fd rb ev n ∧ accesses fd xs = (ev.accepted.take n).filterMap (Record.access T)

namespace Thread.Accounts

variable {th th' : Thread} {xs ys : List (Entry T)} {samples samples' : Fd → List SamplingEvent}

theorem new (blocked : Bool) :
    Thread.Accounts g xs samples { Thread.new with blocked := blocked } where
  accepted fd ev hev := by cases hev
  read fd ev hev := by cases hev

/-- Only the rings and the events matter. -/
theorem congr (h : th.Accounts g xs samples) (hrings : th'.ring_buffers_ = th.ring_buffers_)
    (hevents : th'.events = th.events) : th'.Accounts g xs samples where
  accepted fd ev hev := h.accepted fd ev (hevents ▸ hev)
  read fd ev hev hon := by
    obtain ⟨rb, n, hat, hlog⟩ := h.read fd ev (hevents ▸ hev) hon
    exact ⟨rb, n, ⟨hrings ▸ hat.ring, hev, hat.reading⟩, hlog⟩

/-- The run goes on. -/
theorem mono (h : th.Accounts g xs samples)
    (hsamples : ∀ fd, (samples fd).Sublist (samples' fd)) : th.Accounts g xs samples' where
  accepted fd ev hev := (h.accepted fd ev hev).trans ((hsamples fd).map SamplingEvent.record)
  read := h.read

/-- Other threads drain other descriptors. -/
theorem of_others (h : th.Accounts g xs samples) (hys : ∀ y ∈ ys, th.events y.fd = none) :
    th.Accounts g (xs ++ ys) samples where
  accepted := h.accepted
  read fd ev hev hon := by
    obtain ⟨rb, n, hat, hlog⟩ := h.read fd ev hev hon
    have hnone : accesses fd ys = [] := by
      refine accesses_of_forall_ne fun y hy heq => ?_
      rw [← heq, hys y hy] at hev
      cases hev
    refine ⟨rb, n, hat, ?_⟩
    rw [accesses_append, hnone, List.append_nil, hlog]

/-- A change of an event that spares its ring and its configuration. -/
theorem modify (h : th.Accounts g xs samples) (x : Fd) {f : PerfEvent → PerfEvent}
    (hmmap : ∀ ev, (f ev).mmap = ev.mmap) (haccepted : ∀ ev, (f ev).accepted = ev.accepted)
    (hnotifies : ∀ ev, (f ev).notifies = ev.notifies) : (th.modify x f).Accounts g xs samples where
  accepted fd ev' hev' := by
    obtain ⟨ev, hev, hsame⟩ := Thread.accepted_modify haccepted hev'
    exact hsame ▸ h.accepted fd ev hev
  read fd ev' hev' hon := by
    obtain ⟨ev, hev, rfl | ⟨rfl, rfl⟩⟩ := Thread.events_modify_cases hev'
    · obtain ⟨rb, n, hat, hlog⟩ := h.read fd _ hev hon
      exact ⟨rb, n, ⟨hat.ring, hev', hat.reading⟩, hlog⟩
    · obtain ⟨rb, n, hat, hlog⟩ := h.read fd ev hev ((hnotifies ev).symm.trans hon)
      refine ⟨rb, n, hat.modify f (hat.reading.congr (hmmap ev) (haccepted ev)), ?_⟩
      rw [haccepted ev]
      exact hlog

/-- A descriptor that nobody has used yet. -/
theorem event_open (h : th.Accounts g xs samples) {attr : PerfEventAttribute} {o : OpenOutcome}
    (hring : o.fd ∉ th.ring_buffers_) (hxs : ∀ x ∈ xs, x.fd ≠ o.fd) :
    (th.event_open g attr o).2.Accounts g xs samples := by
  -- what `perf_event_open` has created, or what was there if it has failed
  have hself : ∀ ev, (th.event_open g attr o).2.events o.fd = some ev →
      0 ≤ o.fd ∧ ev = o.event attr ∨ (th.event_open g attr o).2 = th := by
    intro ev hev
    by_cases hnonneg : 0 ≤ o.fd
    · rw [Thread.events_event_open_self hring hnonneg] at hev
      exact Or.inl ⟨hnonneg, (Option.some.inj hev).symm⟩
    · rw [Thread.event_open_of_neg (not_le.mp hnonneg)]
      exact Or.inr rfl
  constructor
  · intro fd ev hev
    by_cases hfd : fd = o.fd
    · subst hfd
      rcases hself ev hev with ⟨-, rfl⟩ | hsame
      · exact List.nil_sublist _
      · exact h.accepted _ ev (hsame ▸ hev)
    · rw [Thread.events_event_open_ne hring hfd] at hev
      exact h.accepted fd ev hev
  · intro fd ev hev hon
    by_cases hfd : fd = o.fd
    · subst hfd
      rcases hself ev hev with ⟨hnonneg, rfl⟩ | hsame
      · have hmapped : o.mapped = true := by
          simp only [PerfEvent.notifies, OpenOutcome.event, Bool.and_eq_true] at hon
          exact hon.1.1.1
        refine ⟨.new g, 0, ⟨?_, hev, ?_⟩, accesses_of_forall_ne hxs⟩
        · rw [Thread.event_open_thread hring, hmapped]
          exact AList.lookup_insert _
        · exact Reading.new o.data (by simp [OpenOutcome.event, hmapped]) rfl
      · rw [hsame] at hev ⊢
        exact h.read _ ev hev hon
    · rw [Thread.events_event_open_ne hring hfd] at hev
      obtain ⟨rb, n, hat, hlog⟩ := h.read fd ev hev hon
      refine ⟨rb, n, ⟨(Thread.lookup_event_open_ne hring hfd).trans hat.ring, ?_, hat.reading⟩,
        hlog⟩
      rw [Thread.events_event_open_ne hring hfd]
      exact hev

/-- **A sample joins the records of its event.** -/
theorem joins (h : th.Accounts g xs samples) {fd : Fd} {e : SamplingEvent} {ev ev' : PerfEvent}
    (hev : th.events fd = some ev) (hev' : ev.produce g e.record = some ev')
    (hsamples : ∀ y, (samples y).Sublist (samples' y))
    (hsample : samples' fd = samples fd ++ [e]) :
    (th.modify fd fun _ => ev').Accounts g xs samples' := by
  obtain ⟨hon', -⟩ := PerfEvent.produce_flags hev'
  have hadded : ev'.accepted = ev.accepted ++ [e.record] := by
    obtain ⟨m, -, hproduce⟩ := Option.bind_eq_some_iff.mp hev'
    obtain ⟨m', -, rfl⟩ := Option.map_eq_some_iff.mp hproduce
    rfl
  refine ⟨fun y ev₁ hev₁ => ?_, fun y ev₁ hev₁ hon => ?_⟩
  · obtain ⟨ev₀, hev₀, rfl | ⟨rfl, rfl⟩⟩ := Thread.events_modify_cases hev₁
    · exact (h.mono hsamples).accepted y _ hev₀
    · rw [hadded, hsample, List.map_append]
      exact (h.accepted _ ev hev).append (.refl _)
  · by_cases hy : y = fd
    · subst hy
      rw [Thread.events_modify_of_eq _ hev] at hev₁
      cases hev₁
      obtain ⟨rb, n, hat, hlog⟩ := h.read y ev hev (hon'.symm.trans hon)
      refine ⟨rb, n, hat.modify (fun _ => ev')
        (hat.reading.produce e.laidOut_record (fun _ _ _ _ => e.size_record_le) hev').1, ?_⟩
      rw [hadded, List.take_append_of_le_length hat.reading.le]
      exact hlog
    · have hother := Thread.events_modify_ne th fd (fun _ => ev') hy
      rw [hother] at hev₁
      obtain ⟨rb, n, hat, hlog⟩ := h.read y ev₁ hev₁ hon
      exact ⟨rb, n, ⟨hat.ring, hother.trans hev₁, hat.reading⟩, hlog⟩

/-- **What a round of the loop drains** is the next record of its event. -/
theorem drains {x x' : Sampler T} {now : UInt64} {fd : Fd}
    (h : x.thread.Accounts g xs samples) (hwired : x.thread.Wired g)
    (hph : x.thread.handler = some (fd, .draining)) (hnext : x.handle g now = some x') :
    x'.thread.Accounts g (xs ++ x.drains g now) samples := by
  obtain ⟨ev, hev, hon⟩ := hwired.handler fd _ hph
  obtain ⟨rb, n, hat, hlog⟩ := h.read fd ev hev hon
  obtain ⟨rb', m', n', hat', hsame, hdrains⟩ := Sampler.handle_draining hat hph hnext
  have hlog' : accesses fd (xs ++ x.drains g now)
      = (ev.accepted.take n').filterMap (Record.access T) := by
    rw [accesses_append, hlog]
    rcases hdrains with ⟨hlt, rfl, -, hentry⟩ | ⟨rfl, -, -, hnone⟩
    · have hone : (ev.accepted[n]).entries T now fd
          = entries T (fun _ => now) fd 0 [ev.accepted[n]] := by
        rw [entries, entries, List.append_nil]
      rw [hentry, hone, accesses_entries, ← List.filterMap_append, List.take_append_getElem hlt]
    · rw [hnone]
      exact List.append_nil _
  have hfds : ∀ y ∈ x.drains g now, y.fd = fd := by
    intro y hy
    have hrun := (Sampler.handle_heap hnext).2.2 y hy
    rw [hph] at hrun
    cases hrun
    rfl
  refine ⟨fun y ev₁ hev₁ => ?_, fun y ev₁ hev₁ hon₁ => ?_⟩
  · by_cases hy : y = fd
    · subst hy
      cases hat'.event.symm.trans hev₁
      exact h.accepted y ev hev
    · rw [(hsame y hy).2] at hev₁
      exact h.accepted y ev₁ hev₁
  · by_cases hy : y = fd
    · subst hy
      cases hat'.event.symm.trans hev₁
      exact ⟨rb', n', hat', hlog'⟩
    · rw [(hsame y hy).2] at hev₁
      obtain ⟨rb₁, n₁, hat₁, hlog₁⟩ := h.read y ev₁ hev₁ hon₁
      refine ⟨rb₁, n₁, ⟨(hsame y hy).1.trans hat₁.ring, (hsame y hy).2.trans hev₁,
        hat₁.reading⟩, ?_⟩
      have hother : accesses y (x.drains g now) = [] :=
        accesses_of_forall_ne fun z hz heq => hy (heq.symm.trans (hfds z hz))
      rw [accesses_append, hother, List.append_nil, hlog₁]

/-- **Samples, signals and handlers.** -/
theorem next {x x' : Sampler T} {f : SamplerEvent} (h : x.thread.Accounts g xs samples)
    (hwired : x.thread.Wired g) (hnext : (samplerMachine g T).next x f = some x')
    (hsamples : ∀ fd, (samples fd).Sublist (samples' fd))
    (hsample : ∀ fd e, f = .sample fd e → samples' fd = samples fd ++ [e]) :
    x'.thread.Accounts g (xs ++ drainedBy g x f) samples' := by
  have hmono := h.mono hsamples
  have hnil : drainedBy g x f = [] → xs ++ drainedBy g x f = xs := by
    intro hnone
    rw [hnone, List.append_nil]
  cases f with
  | sample fd e =>
      rw [hnil rfl]
      obtain ⟨th, hth, rfl⟩ := Option.map_eq_some_iff.mp hnext
      obtain ⟨ev, hev, -, rfl | ⟨ev', hev', -, rfl⟩⟩ := Thread.sample_cases hth
      · exact hmono
      · have hjoined := h.joins hev hev' hsamples (hsample fd e rfl)
        split
        case isTrue => exact hjoined.congr rfl rfl
        case isFalse => exact hjoined
  | deliver =>
      rw [hnil rfl]
      obtain ⟨th, hdeliver, rfl⟩ := Option.map_eq_some_iff.mp hnext
      obtain ⟨fd, -, -, -, rfl⟩ := Thread.deliver_cases hdeliver
      exact hmono.congr rfl rfl
  | handle now =>
      obtain ⟨fd, ph, hph, hcase⟩ := Sampler.handle_cases hnext
      -- only the loop drains
      have hidle : ph ≠ .draining → drainedBy g x (.handle now) = [] := by
        intro hne
        refine List.eq_nil_iff_forall_not_mem.mpr fun y hy => hne ?_
        have hrun := (Sampler.handle_heap hnext).2.2 y hy
        rw [hph] at hrun
        cases hrun
        rfl
      cases ph with
      | entered =>
          subst hcase
          rw [hnil (hidle Phase.noConfusion)]
          exact (hmono.modify fd (f := fun ev => { ev with enabled := false }) (fun _ => rfl)
            (fun _ => rfl) fun _ => rfl).congr rfl rfl
      | draining => exact hmono.drains hwired hph hnext
      | drained =>
          subst hcase
          rw [hnil (hidle Phase.noConfusion)]
          exact (hmono.modify fd (f := fun ev => { ev with enabled := true }) (fun _ => rfl)
            (fun _ => rfl) fun _ => rfl).congr rfl rfl
      | enabled =>
          subst hcase
          rw [hnil (hidle Phase.noConfusion)]
          exact hmono.congr rfl rfl

end Thread.Accounts

/-! ### Every run -/

/-- **The invariant of a run.**  What each thread accounts for, and what has been drained of
each descriptor, whether its thread still runs or not. -/
structure Process.Faithful (g : Geometry) (es : List ProcessEvent) (s : Process T) : Prop where
  threads : ∀ t k, s.threads t = some k → k.thread.Accounts g s.drained (samplesOf es)
  drained : ∀ fd, (accesses fd s.drained).Sublist (sampledAccesses T (samplesOf es fd))

namespace Process.Faithful

variable {es : List ProcessEvent}

theorem init (g : Geometry) (T : TraceEvents) : (Process.init T).Faithful g [] where
  threads t k hk := by cases hk
  drained fd := .slnil

/-- What a thread accounts for has been sampled. -/
theorem sublist_of_accounts {th : Thread} {xs : List (Entry T)}
    {samples : Fd → List SamplingEvent} (h : th.Accounts g xs samples) {fd : Fd} {ev : PerfEvent}
    (hev : th.events fd = some ev) (hon : ev.notifies = true) :
    (accesses fd xs).Sublist (sampledAccesses T (samples fd)) := by
  obtain ⟨rb, n, -, hlog⟩ := h.read fd ev hev hon
  rw [hlog, sampledAccesses_eq]
  exact ((List.take_sublist n ev.accepted).trans (h.accepted fd ev hev)).filterMap _

/-- A thread whose events and handler take no step. -/
theorem of_came (h : s.Faithful g es) (howned : s.Owned) {t : ThreadId} {th : Thread}
    (hcame : s.Came g e s' t th) (hother : ∀ f, e ≠ .sampling t f) :
    th.Accounts g s.drained (samplesOf (es ++ [e])) := by
  obtain ⟨-, blocked, rfl⟩ | ⟨k, hk, hmoves⟩ := hcame
  · exact .new blocked
  have hmono := (h.threads t k hk).mono (samplesOf_sublist es e)
  cases hmoves with
  | stays => exact hmono
  | buffer => exact hmono.congr rfl rfl
  | event_open _ _ _ hfresh =>
      refine hmono.event_open (fun hmem => howned.not_uses hk hfresh (Or.inl hmem)) ?_
      intro x hx heq
      exact howned.drained x hx (heq ▸ hfresh)
  | enable_fd _ _ x =>
      exact hmono.modify x (f := fun ev => { ev with enabled := true }) (fun _ => rfl)
        (fun _ => rfl) fun _ => rfl
  | disable => exact hmono.congr rfl rfl
  | sampled he => exact absurd he (hother _)

/-- The thread whose events or handler take the step. -/
theorem of_sampled (h : s.Faithful g es) (hwired : ∀ t k, s.threads t = some k → s.WiredTask g k)
    {t : ThreadId} {k : Task} {f : SamplerEvent} {x : Sampler T} (hk : s.threads t = some k)
    (hnext : (samplerMachine g T).next ⟨k.thread, s.plugin.heap⟩ f = some x) :
    x.thread.Accounts g (s.drained ++ drainedBy g ⟨k.thread, s.plugin.heap⟩ f)
      (samplesOf (es ++ [.sampling t f])) := by
  refine Thread.Accounts.next (x := ⟨k.thread, s.plugin.heap⟩) (h.threads t k hk)
    (hwired t k hk).wired hnext (samplesOf_sublist es _) fun fd e' he => ?_
  subst he
  rw [samplesOf_concat]
  simp [samplesOf]

/-- **Every step keeps it.** -/
theorem step (h : s.Faithful g es) (hregistry : s.Registry) (howned : s.Owned)
    (hwired : ∀ t k, s.threads t = some k → s.WiredTask g k)
    (hstep : Process.Step g pfm s e s') : s'.Faithful g (es ++ [e]) := by
  have howned' := howned.step hregistry hstep
  have hsublist : ∀ fd, (accesses fd s.drained).Sublist
      (sampledAccesses T (samplesOf (es ++ [e]) fd)) :=
    fun fd => (h.drained fd).trans ((samplesOf_sublist es e fd).filterMap _)
  obtain ⟨-, hdrained, hnot⟩ | ⟨t, k, f, x, rfl, hk, hnext, hs'⟩ := hstep.drains
  · rw [← hdrained] at hsublist
    refine ⟨fun t k hk => ?_, hsublist⟩
    rw [hdrained]
    exact h.of_came howned (hstep.came t k hk) (hnot t)
  have hself := h.of_sampled hwired hk hnext
  obtain ⟨-, -, hfds⟩ := Sampler.next_heap hnext
  have hdrained : s'.drained = s.drained ++ drainedBy g ⟨k.thread, s.plugin.heap⟩ f := by
    rw [hs']
    rfl
  have hx : s'.threads t = some { k with thread := x.thread } := by
    rw [hs', Process.set_threads_self]
  constructor
  · intro u j hj
    rw [hdrained]
    by_cases hut : u = t
    · subst hut
      cases hx.symm.trans hj
      exact hself
    · refine (h.of_came howned (hstep.came u j hj) fun f' heq => ?_).of_others fun y hy => ?_
      · cases heq
        exact hut rfl
      · -- the descriptor is the other thread's
        by_contra hsome
        have huses : k.thread.Uses y.fd := Or.inr (Or.inr (Or.inr ⟨_, hfds y hy⟩))
        obtain ⟨r, hr, htid⟩ := howned.uses t k hk y.fd huses
        obtain ⟨r', hr', htid'⟩ := howned'.uses u j hj y.fd (Or.inr (Or.inl hsome))
        cases (hstep.extends.opened y.fd r hr).symm.trans hr'
        exact hut (htid'.symm.trans htid)
  · intro fd
    rw [hdrained, accesses_append]
    by_cases hmem : ∃ y ∈ drainedBy g ⟨k.thread, s.plugin.heap⟩ f, y.fd = fd
    · obtain ⟨y, hy, rfl⟩ := hmem
      have hph := hfds y hy
      cases f with
      | sample fd e' => cases hy
      | deliver => cases hy
      | handle now =>
          obtain ⟨ev, hev, hon⟩ := (hwired t k hk).wired.handler y.fd _ hph
          obtain ⟨rb, n, hat, -⟩ := (h.threads t k hk).read y.fd ev hev hon
          obtain ⟨rb', m', n', hat', -⟩ :=
            Sampler.handle_draining (x := ⟨k.thread, s.plugin.heap⟩) hat hph hnext
          rw [← accesses_append]
          exact sublist_of_accounts hself hat'.event hon
    · have hnone : accesses fd (drainedBy g ⟨k.thread, s.plugin.heap⟩ f) = [] :=
        accesses_of_forall_ne fun y hy heq => hmem ⟨y, hy, heq⟩
      rw [hnone, List.append_nil]
      exact hsublist fd

theorem of_exec (hrun : (processMachine g pfm T).exec (.init T) es = some s) :
    s.Faithful g es :=
  ((processMachine g pfm T).exec_past
    (I := fun es s => s.Faithful g es ∧ s.Registry ∧ s.Owned ∧
      ∀ t k, s.threads t = some k → s.WiredTask g k)
    ⟨.init g T, .init T, .init T, fun _ _ hk => by cases hk⟩
    (fun es s e s' _ hinv hnext => by
      obtain ⟨hfaithful, hregistry, howned, hwired⟩ := hinv
      have hstep := Process.step_of_next hnext
      exact ⟨hfaithful.step hregistry howned hwired hstep, hregistry.step hstep,
        howned.step hregistry hstep, Process.WiredTask.step hwired hstep⟩) hrun).1

end Process.Faithful

/-! ### The results -/

/-- A sample without an address is about no access. -/
theorem address_of_mem_sampledAccesses {samples : List SamplingEvent} {a : Access T}
    (h : a ∈ sampledAccesses T samples) : a.address ≠ 0 := by
  obtain ⟨e, -, he⟩ := List.mem_filterMap.mp h
  rw [SamplingEvent.access_record] at he
  split at he
  case isTrue haddr =>
    cases he
    exact haddr
  case isFalse => cases he

/-- An entry is among the accesses of its descriptor. -/
theorem mem_accesses {x : Entry T} {xs : List (Entry T)} (h : x ∈ xs) :
    x.event.toAccess ∈ accesses x.fd xs :=
  List.mem_map.mpr ⟨x, List.mem_filter.mpr ⟨h, by simp⟩, rfl⟩

/-- The entries of a buffer are samples, event by event. -/
theorem Process.accesses_sublist {es : List ProcessEvent}
    (hrun : (processMachine g pfm T).exec (.init T) es = some s) (p : BufferPtr) (fd : Fd) :
    (accesses fd (s.plugin.heap p)).Sublist (sampledAccesses T (samplesOf es fd)) := by
  have howned : s.Owned := .of_exec hrun
  have hfaithful : s.Faithful g es := .of_exec hrun
  have hdrained : (accesses fd (s.plugin.heap p)).Sublist (accesses fd s.drained) :=
    ((howned.sublist p).filter _).map _
  exact hdrained.trans (hfaithful.drained fd)

/-- No entry of a buffer is without an address. -/
theorem Process.address_ne_zero {es : List ProcessEvent}
    (hrun : (processMachine g pfm T).exec (.init T) es = some s) {p : BufferPtr} {x : Entry T}
    (hx : x ∈ s.plugin.heap p) : x.event.address ≠ 0 :=
  address_of_mem_sampledAccesses
    ((Process.accesses_sublist hrun p x.fd).subset (mem_accesses hx))

/-- **Nothing is made up, and nothing is mixed up.**  In any run in which the kernel writes
nothing but samples into the rings, with threads that come and go and thread ids that are used
again, the event buffer of a thread id has nothing but samples with an address, taken by events
that threads with this id have opened; of each event, they are a subsequence of its samples: in
order, and each at most once. -/
theorem recorded_sublist {es : List ProcessEvent}
    (hrun : (processMachine g pfm T).exec (.init T) es = some s) {t : ThreadId} {p : BufferPtr}
    (hp : s.plugin.thread_event_buffers_.lookup t = some (some p)) :
    (∀ x ∈ s.plugin.heap p, x.event.address ≠ 0 ∧ ∃ r, s.opened x.fd = some r ∧ r.tid = t) ∧
    ∀ fd, (accesses fd (s.plugin.heap p)).Sublist (sampledAccesses T (samplesOf es fd)) := by
  have howned : s.Owned := .of_exec hrun
  have hregistry : s.Registry := .of_exec hrun
  refine ⟨fun x hx => ⟨Process.address_ne_zero hrun hx, ?_⟩, Process.accesses_sublist hrun p⟩
  obtain ⟨r, hr, hbuffer⟩ := howned.entries p x hx
  exact ⟨r, hr, hregistry.injective r.tid t _ hbuffer hp⟩

/-- A thread samples loads with two periods, and stores; each event takes a sample. -/
def threeMetrics : List ProcessEvent :=
  .start ⟨1⟩ false :: addSteps ⟨1⟩ "Load@1000".toList (.success 3 fun _ => 0) 1
    ++ addSteps ⟨1⟩ "Load@2000".toList (.success 4 fun _ => 0) 2
    ++ addSteps ⟨1⟩ "Store@2000".toList (.success 5 fun _ => 0) 3
    ++ sampleSteps ⟨1⟩ 3 ⟨0, 0x401000, 0x7ffe0010, 0x2⟩
    ++ sampleSteps ⟨1⟩ 4 ⟨0, 0x401004, 0x7ffe0020, 0x2⟩
    ++ sampleSteps ⟨1⟩ 5 ⟨0, 0x401008, 0x7ffe0030, 0x4⟩

/-- A thread samples with three events, and another one takes its id after it has gone. -/
def threeMetricsAgain : List ProcessEvent :=
  threeMetrics ++ [.exit ⟨1⟩, .start ⟨1⟩ false]
    ++ addSteps ⟨1⟩ "Load@1000".toList (.success 6 fun _ => 0) 1 ++ sampleSteps ⟨1⟩ 6 aLoad

set_option maxRecDepth 10000 in
/-- Three of the four samples are recorded. -/
theorem recorded_sublist_again :
    ∃ s : Process .perf,
      (processMachine .x86 .intel .perf).exec (.init .perf) threeMetricsAgain = some s ∧
      (s.plugin.heap 0).length = 3 ∧ (∀ x ∈ s.plugin.heap 0, x.event.address ≠ 0) ∧
      (accesses 3 (s.plugin.heap 0)).Sublist
        (sampledAccesses .perf (samplesOf threeMetricsAgain 3)) := by
  have hlast : ((processMachine .x86 .intel .perf).exec (.init .perf) threeMetricsAgain).map
      (fun s => (s.plugin.thread_event_buffers_.lookup ⟨1⟩, (s.plugin.heap 0).length))
        = some (some (some 0), 3) := by
    decide +kernel
  obtain ⟨s, hrun, hs⟩ := Option.map_eq_some_iff.mp hlast
  obtain ⟨hp, hlength⟩ := Prod.mk.inj hs
  obtain ⟨haddress, hsublist⟩ := recorded_sublist hrun hp
  exact ⟨s, hrun, hlength, fun x hx => (haddress x hx).1, hsublist 3⟩

end AccessSampling
