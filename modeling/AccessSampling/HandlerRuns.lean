import AccessSampling.Signals

/-!
# Handlers from their entry to their return

`signal_handler` is the handler in one piece, and `samplerMachine` takes it one step at a
time.  This module connects the two, and says what becomes of a thread that is left to
itself.

* `exec_signal_handler` — the steps of a handler that nothing comes between are
  `signal_handler`.
* `handler_returns` — from any point of it, a handler comes to its return, and only its
  own ring and event have changed then.
* `stranded_of_merged` — the condition of `no_stranded_samples` is exact: a sample whose
  `SIGPROF` is merged into that of another event is still in its ring when the thread has
  come to rest.

"Left to itself" means that no more samples are taken: what remains is to deliver the
`SIGPROF` that is pending, and the steps of the handlers.
-/

namespace AccessSampling

open Foundation

section HandlerRuns

variable {T : TraceEvents} {g : Geometry} {s s' : Sampler T} {fd : Fd}

/-! ### One piece, and one step at a time -/

/-- A round of the loop does not look at where the handler is. -/
theorem Sampler.processNext_goto (now : UInt64) (k : Option (Fd × Phase)) :
    (s.goto k).processNext g now fd
      = (s.processNext g now fd).map fun x => (x.1, x.2.goto k) := by
  have hring : (s.goto k).thread.ring_buffers_ = s.thread.ring_buffers_ := rfl
  have hmmap : (s.goto k).thread.mmapOf fd = s.thread.mmapOf fd := rfl
  rw [Sampler.processNext, Sampler.processNext, hring, hmmap]
  cases s.thread.ring_buffers_.lookup fd with
  | none => rfl
  | some rb =>
      cases s.thread.mmapOf fd with
      | none => rfl
      | some m =>
          simp only [Option.bind_some]
          cases rb.read g m with
          | none => rfl
          | some res =>
              simp only [Option.bind_some]
              cases res.event with
              | none => rfl
              | some ptr =>
                  simp only [Option.map_map]
                  refine congrFun (congrArg Option.map (funext fun x => ?_)) _
                  cases x with
                  | none => rfl
                  | some event => rfl

/-- The rounds of the loop. -/
theorem exec_process_events {clock : ℕ → UInt64} {fuel i n : ℕ}
    (h : s.process_events g clock fd fuel i = some (n, s')) :
    ∃ times : List UInt64, times.length + i = n ∧
      (samplerMachine g T).exec (s.goto (some (fd, .draining)))
        (times.map SamplerEvent.handle) = some (s'.goto (some (fd, .drained))) := by
  induction fuel generalizing s i with
  | zero => cases h
  | succ fuel ih =>
      obtain ⟨⟨more, s₁⟩, hnext, h⟩ := Option.bind_eq_some_iff.mp h
      have hround : (samplerMachine g T).next (s.goto (some (fd, .draining))) (.handle (clock i))
          = some (if more then s₁.goto (some (fd, .draining))
            else s₁.goto (some (fd, .drained))) := by
        show (Sampler.processNext g (clock i) fd (s.goto (some (fd, .draining)))).map _ = _
        rw [Sampler.processNext_goto, hnext]
        cases more with
        | true => rfl
        | false => rfl
      cases more with
      | true =>
          obtain ⟨times, hlength, hrun⟩ := ih h
          refine ⟨clock i :: times, by rw [List.length_cons]; omega, ?_⟩
          rw [List.map_cons, Machine.exec_cons, hround]
          exact hrun
      | false =>
          cases h
          refine ⟨[clock i], by rw [List.length_singleton]; omega, ?_⟩
          exact (Machine.exec_singleton _ _ _).trans hround

/-- The end of a handler. -/
theorem exec_drained (h : s.thread.handler = some (fd, .drained)) :
    (samplerMachine g T).exec s ([0, 0].map SamplerEvent.handle)
      = some (Sampler.goto ⟨s.thread.enable_fd fd, s.heap⟩ none) := by
  have hfirst : (samplerMachine g T).next s (.handle 0)
      = some (Sampler.goto ⟨s.thread.enable_fd fd, s.heap⟩ (some (fd, .enabled))) := by
    simp only [samplerMachine, Sampler.handle, h]
  rw [List.map_cons, Machine.exec_cons, hfirst]
  rfl

/-- **The steps of a handler are `signal_handler`**, when nothing comes between them. -/
theorem exec_signal_handler {clock : ℕ → UInt64} {fuel n : ℕ}
    (hentered : s.thread.handler = some (fd, .entered))
    (h : s.signal_handler g clock fuel fd = some (n, s')) :
    ∃ times : List UInt64, times.length = n + 3 ∧
      (samplerMachine g T).exec s (times.map SamplerEvent.handle) = some (s'.goto none) := by
  obtain ⟨⟨n₁, s₁⟩, hloop, hend⟩ := Option.map_eq_some_iff.mp h
  cases hend
  have hring : (s.thread.disable_fd fd).ring_buffers_ = s.thread.ring_buffers_ := rfl
  simp only [hring] at hloop
  have hfirst : (samplerMachine g T).next s (.handle 0)
      = some (Sampler.goto ⟨s.thread.disable_fd fd, s.heap⟩
          (some (fd, if fd ∈ s.thread.ring_buffers_ then .draining else .drained))) := by
    simp only [samplerMachine, Sampler.handle, hentered]
  by_cases hfd : fd ∈ s.thread.ring_buffers_
  · rw [if_pos hfd] at hloop hfirst
    obtain ⟨times, hlength, hrun⟩ := exec_process_events hloop
    refine ⟨0 :: times ++ [0, 0], by simp; omega, ?_⟩
    rw [List.map_append, Machine.exec_append_eq_some]
    refine ⟨s₁.goto (some (fd, .drained)), ?_,
      exec_drained (s := s₁.goto (some (fd, .drained))) rfl⟩
    rw [List.map_cons, Machine.exec_cons, hfirst]
    exact hrun
  · rw [if_neg hfd] at hloop hfirst
    cases hloop
    refine ⟨[0, 0, 0], rfl, ?_⟩
    rw [List.map_cons, Machine.exec_cons, hfirst, Option.bind_some]
    exact exec_drained (s := Sampler.goto ⟨s.thread.disable_fd fd, s.heap⟩ (some (fd, .drained)))
      rfl

/-! ### Coming to rest -/

/-- **A handler returns**, from any point of it, and only what belongs to its descriptor
has changed then. -/
theorem handler_returns {rb : PerfRingBuffer} {ev : PerfEvent} {n : ℕ} {ph : Phase}
    (hph : s.thread.handler = some (fd, ph)) (hat : s.thread.At g fd rb ev n) :
    ∃ (times : List UInt64) (th : Thread) (heap : Heap T), s.thread.SameBut fd th ∧
      (samplerMachine g T).exec s (times.map SamplerEvent.handle)
        = some (Sampler.goto ⟨th, heap⟩ none) := by
  have hfuel : ev.accepted.length - n < ev.accepted.length - n + 1 := Nat.lt_succ_self _
  have hsame : s.thread.SameBut fd (s.thread.enable_fd fd) := s.thread.sameBut_modify fd _
  cases ph with
  | entered =>
      obtain ⟨th, rb', m', hrun, -, hsame, -⟩ := signal_handler_eq (fun _ => 0) hat hfuel
      obtain ⟨times, -, hsteps⟩ := exec_signal_handler hph hrun
      exact ⟨times, th, _, hsame, hsteps⟩
  | draining =>
      obtain ⟨th, rb', m', hloop, -, hsame, -⟩ :=
        process_events_eq (i := 0) (fun _ => 0) hat (Nat.add_sub_cancel' hat.reading.le) hfuel
      generalize s.heap.extend _ _ = heap at hloop
      obtain ⟨times, -, hsteps⟩ := exec_process_events hloop
      have hself : s.goto (some (fd, .draining)) = s := by
        rw [← hph]
        rfl
      rw [hself] at hsteps
      refine ⟨times ++ [0, 0], th.enable_fd fd, heap, hsame.trans (th.sameBut_modify fd _), ?_⟩
      rw [List.map_append, Machine.exec_append_eq_some]
      exact ⟨_, hsteps, exec_drained rfl⟩
  | drained => exact ⟨[0, 0], s.thread.enable_fd fd, s.heap, hsame, exec_drained hph⟩
  | enabled =>
      refine ⟨[0], s.thread, s.heap, .refl fd s.thread, ?_⟩
      rw [List.map_singleton, Machine.exec_singleton]
      simp only [samplerMachine, Sampler.handle, hph]

/-- A ring with an unread record is not drained. -/
theorem Thread.At.not_caughtUp {th : Thread} {rb : PerfRingBuffer} {ev : PerfEvent} {n : ℕ}
    (h : th.At g fd rb ev n) (hlt : n < ev.accepted.length) : ¬ th.CaughtUp fd := by
  rintro ⟨rb', m, hrb', hm, hprev⟩
  cases h.ring.symm.trans hrb'
  have hmmap : ev.mmap = some m := by
    rw [Thread.mmapOf, h.event, Option.bind_some] at hm
    exact hm
  exact hlt.ne ((h.reading.prev_eq_head_iff hmmap).mp hprev)

variable {p : BufferPtr} {fds : List Fd} {rb : PerfRingBuffer} {ev : PerfEvent} {n : ℕ}

/-- The handler of a thread returns, and leaves a ring alone that it is not told about. -/
theorem Sampler.Sound.handler_returns_other (h : s.Sound g p fds) (hat : s.thread.At g fd rb ev n)
    (hother : ∀ ph, s.thread.handler = some (fd, ph) → ph = .enabled) :
    ∃ (times : List UInt64) (s' : Sampler T),
      (samplerMachine g T).exec s (times.map SamplerEvent.handle) = some s' ∧
      s'.Sound g p fds ∧ s'.thread.handler = none ∧ s'.thread.pending = s.thread.pending ∧
      s'.thread.At g fd rb ev n := by
  have hsound : ∀ {es s'}, (samplerMachine g T).exec s es = some s' → s'.Sound g p fds :=
    fun hrun => (samplerMachine g T).exec_preserves (fun _ _ _ h hnext => h.step hnext) h hrun
  cases hhandler : s.thread.handler with
  | none => exact ⟨[], s, rfl, h, hhandler, rfl, hat⟩
  | some k =>
      obtain ⟨y, ph⟩ := k
      by_cases hy : y = fd
      · subst hy
        cases hother ph hhandler
        have hrun : (samplerMachine g T).exec s ([0].map SamplerEvent.handle)
            = some (s.goto none) := by
          rw [List.map_singleton, Machine.exec_singleton]
          simp only [samplerMachine, Sampler.handle, hhandler]
        exact ⟨[0], s.goto none, hrun, hsound hrun, rfl, rfl, hat.ring, hat.event, hat.reading⟩
      · obtain ⟨rb', ev', n', hat', -⟩ := h.follows.rings y (h.handler_mem y ph hhandler)
        obtain ⟨times, th, heap, hsame, hrun⟩ := handler_returns hhandler hat'
        have hth := hsame.at (Ne.symm hy) hat
        exact ⟨times, _, hrun, hsound hrun, rfl, hsame.pending, hth.ring, hth.event, hth.reading⟩

/-- **A sample whose `SIGPROF` is merged into that of another event is stranded.**  When
the thread comes to rest, the record is still in its ring. -/
theorem stranded_of_merged (h : s.Sound g p fds) {e : SamplingEvent}
    (hnext : (samplerMachine g T).next s (.sample fd e) = some s')
    (hmerged : ¬ SignalKept g s (.sample fd e)) :
    ∃ (fs : List SamplerEvent) (s'' : Sampler T),
      (∀ e ∈ fs, e = .deliver ∨ ∃ now, e = .handle now) ∧
      (samplerMachine g T).exec s' fs = some s'' ∧ s''.thread.pending = none ∧
      s''.thread.handler = none ∧ fd ∈ fds ∧ ¬ s''.thread.CaughtUp fd := by
  have hsound' := h.step hnext
  obtain ⟨th, hsample, rfl⟩ := Option.map_eq_some_iff.mp hnext
  simp only [SignalKept, not_forall, not_or] at hmerged
  obtain ⟨th₀, hproduce, hpending, hfd, hentered⟩ := hmerged
  obtain ⟨x, hx⟩ := Option.ne_none_iff_exists'.mp hpending
  have hxfd : x ≠ fd := fun heq => hfd (heq ▸ hx)
  obtain ⟨ev, hev, henabled, ⟨hfalse, -⟩ | ⟨-, ev', hev', rfl⟩⟩ := Thread.produce_cases hproduce
  · cases hfalse
  obtain ⟨hmem, hnotifies⟩ := h.event_mem fd ev hev
  have hth : (s.thread.modify fd fun _ => ev').notify fd = th := by
    rw [Thread.sample, hproduce, Option.map_some, hev, Option.any_some, hnotifies] at hsample
    exact Option.some.inj hsample
  subst hth
  -- the record has joined its ring, and the signal that is pending is not its own
  obtain ⟨rb, ev₀, n, hat, -⟩ := h.follows.rings fd hmem
  cases hat.event.symm.trans hev
  obtain ⟨hreading, haccepted⟩ :=
    hat.reading.produce e.laidOut_record (fun _ _ _ _ => e.size_record_le) hev'
  have hlt : n < ev'.accepted.length := by
    have := hat.reading.le
    rw [haccepted, List.length_append, List.length_singleton]
    omega
  have hjoined := hat.modify (fun _ => ev') hreading
  have hstill : ((s.thread.modify fd fun _ => ev').notify fd).pending = some x := by
    rw [Thread.notify, Thread.modify_pending, hx]
    rfl
  have hat' : ((s.thread.modify fd fun _ => ev').notify fd).At g fd rb ev' n :=
    ⟨hjoined.ring, hjoined.event, hjoined.reading⟩
  -- the handler that runs is not to drain the ring: its event is enabled
  have hother : ∀ ph, s.thread.handler = some (fd, ph) → ph = .enabled := by
    intro ph hph
    cases ph with
    | entered => exact absurd hph hentered
    | draining =>
        rw [h.off fd _ ev hph (Or.inl rfl) hev] at henabled
        cases henabled
    | drained =>
        rw [h.off fd _ ev hph (Or.inr rfl) hev] at henabled
        cases henabled
    | enabled => rfl
  obtain ⟨times₁, s₁, hrun₁, hsound₁, hhandler₁, hpending₁, hat₁⟩ :=
    hsound'.handler_returns_other hat' hother
  -- the next handler is that of the other event
  have hdeliver : (samplerMachine g T).next s₁ .deliver = some
      ⟨{ s₁.thread with pending := none, handler := some (x, .entered) }, s₁.heap⟩ := by
    simp only [samplerMachine, Thread.deliver, hpending₁.trans hstill, hhandler₁,
      hsound₁.unblocked, Bool.false_eq_true, if_false, Option.map_some]
  obtain ⟨times₂, s₂, hrun₂, -, hhandler₂, hpending₂, hat₂⟩ :=
    (hsound₁.step hdeliver).handler_returns_other
      ⟨hat₁.ring, hat₁.event, hat₁.reading⟩ fun ph hph => by
        cases hph
        exact absurd rfl hxfd
  refine ⟨times₁.map .handle ++ .deliver :: times₂.map .handle, s₂, fun e he => ?_, ?_,
    hpending₂, hhandler₂, hmem, hat₂.not_caughtUp hlt⟩
  · rcases List.mem_append.mp he with he | he
    · obtain ⟨now, -, rfl⟩ := List.mem_map.mp he
      exact Or.inr ⟨now, rfl⟩
    · rcases List.mem_cons.mp he with rfl | he
      · exact Or.inl rfl
      · obtain ⟨now, -, rfl⟩ := List.mem_map.mp he
        exact Or.inr ⟨now, rfl⟩
  · rw [Machine.exec_append_eq_some]
    refine ⟨s₁, hrun₁, ?_⟩
    rw [Machine.exec_cons, hdeliver]
    exact hrun₂

/-! ### Whether a thread goes on recording -/

/-- A round of the loop leaves the ring in order. -/
theorem Thread.At.processNext (h : s.thread.At g fd rb ev n) {now : UInt64} {more : Bool}
    (hnext : s.processNext g now fd = some (more, s')) :
    ∃ rb' m' n', s'.thread.At g fd rb' { ev with mmap := some m' } n' ∧
      s.thread.SameBut fd s'.thread := by
  rcases Nat.eq_or_lt_of_le h.reading.le with hcaught | hlt
  · rw [hcaught] at h
    obtain ⟨th', m', heq, hat', hsame, -⟩ := processNext_caught now h
    cases heq.symm.trans hnext
    exact ⟨rb, m', _, hat', hsame⟩
  · obtain ⟨th', rb', m', heq, hat', hsame⟩ := processNext_behind now h hlt
    cases heq.symm.trans hnext
    exact ⟨rb', m', _, hat', hsame⟩

/-- The events of a thread that send signals have their rings, and the signals of the
thread are theirs. -/
structure Thread.Wired (g : Geometry) (th : Thread) : Prop where
  rings : ∀ x ev, th.events x = some ev → ev.notifies = true → ∃ rb n, th.At g x rb ev n
  pending : ∀ x, th.pending = some x → ∃ ev, th.events x = some ev ∧ ev.notifies = true
  handler : ∀ x ph, th.handler = some (x, ph) → ∃ ev, th.events x = some ev ∧ ev.notifies = true

namespace Thread.Wired

variable {th th' : Thread}

theorem new (blocked : Bool) : Thread.Wired g { Thread.new with blocked := blocked } where
  rings x ev hev := by cases hev
  pending x hx := by cases hx
  handler x ph hx := by cases hx

/-- Only the rings, the events and the signals matter. -/
theorem congr (h : th.Wired g) (hrings : th'.ring_buffers_ = th.ring_buffers_)
    (hevents : th'.events = th.events)
    (hpending : ∀ x, th'.pending = some x → ∃ ev, th.events x = some ev ∧ ev.notifies = true)
    (hhandler : ∀ x ph, th'.handler = some (x, ph) →
      ∃ ev, th.events x = some ev ∧ ev.notifies = true) : th'.Wired g where
  rings x ev hev hon := by
    rw [hevents] at hev
    obtain ⟨rb, n, hat⟩ := h.rings x ev hev hon
    exact ⟨rb, n, hrings ▸ hat.ring, hevents ▸ hat.event, hat.reading⟩
  pending x hx := hevents ▸ hpending x hx
  handler x ph hx := hevents ▸ hhandler x ph hx

/-- What concerns one descriptor leaves the others wired. -/
theorem frame (h : th.Wired g) (fd : Fd) (hrings : ∀ x ≠ fd,
      th'.ring_buffers_.lookup x = th.ring_buffers_.lookup x)
    (hevents : ∀ x ≠ fd, th'.events x = th.events x)
    (hself : ∀ ev', th'.events fd = some ev' → ev'.notifies = true → ∃ rb n, th'.At g fd rb ev' n)
    (hkept : ∀ ev, th.events fd = some ev → ev.notifies = true →
      ∃ ev', th'.events fd = some ev' ∧ ev'.notifies = true)
    (hpending : ∀ x, th'.pending = some x → th.pending = some x ∨
      ∃ ev, th.events x = some ev ∧ ev.notifies = true)
    (hhandler : ∀ x ph, th'.handler = some (x, ph) →
      ∃ ev, th.events x = some ev ∧ ev.notifies = true) : th'.Wired g := by
  have hall : ∀ x, (∃ ev, th.events x = some ev ∧ ev.notifies = true) →
      ∃ ev', th'.events x = some ev' ∧ ev'.notifies = true := by
    rintro x ⟨ev, hev, hnotifies⟩
    by_cases hx : x = fd
    · subst hx
      exact hkept ev hev hnotifies
    · exact ⟨ev, (hevents x hx).trans hev, hnotifies⟩
  refine ⟨fun x ev' hev' hnotifies => ?_, fun x hx => ?_, fun x ph hx => hall x (hhandler x ph hx)⟩
  · by_cases hx : x = fd
    · subst hx
      exact hself ev' hev' hnotifies
    · rw [hevents x hx] at hev'
      obtain ⟨rb, n, hat⟩ := h.rings x ev' hev' hnotifies
      exact ⟨rb, n, (hrings x hx).trans hat.ring, (hevents x hx).trans hat.event, hat.reading⟩
  · exact hall x ((hpending x hx).elim (h.pending x) id)

/-- A change of an event that spares its ring and its configuration, and of where the
handler is. -/
theorem modify (h : th.Wired g) (fd : Fd) {f : PerfEvent → PerfEvent} {k : Option (Fd × Phase)}
    (hmmap : ∀ ev, (f ev).mmap = ev.mmap) (haccepted : ∀ ev, (f ev).accepted = ev.accepted)
    (hnotifies : ∀ ev, (f ev).notifies = ev.notifies)
    (hk : ∀ x ph, k = some (x, ph) → ∃ ev, th.events x = some ev ∧ ev.notifies = true) :
    Thread.Wired g { th.modify fd f with handler := k } := by
  refine h.frame fd (fun _ _ => rfl) (fun x hx => Thread.events_modify_ne th fd f hx)
    (fun ev' hev' hev'' => ?_) (fun ev hev hon => ?_) (fun x hx => Or.inl hx) hk
  · obtain ⟨ev, hev, rfl⟩ := Option.map_eq_some_iff.mp
      ((Thread.events_modify_self th fd f).symm.trans hev')
    obtain ⟨rb, n, hat⟩ := h.rings fd ev hev ((hnotifies ev).symm.trans hev'')
    have hmodified := hat.modify f (hat.reading.congr (hmmap ev) (haccepted ev))
    exact ⟨rb, n, hmodified.ring, hmodified.event, hmodified.reading⟩
  · exact ⟨f ev, Thread.events_modify_of_eq f hev, (hnotifies ev).trans hon⟩

/-- **A thread stays wired** along samples, signals and handlers. -/
theorem next (h : s.thread.Wired g) {e : SamplerEvent}
    (hnext : (samplerMachine g T).next s e = some s') : s'.thread.Wired g := by
  cases e with
  | sample x e =>
      obtain ⟨th, hsample, rfl⟩ := Option.map_eq_some_iff.mp hnext
      obtain ⟨ev, hev, -, rfl | ⟨ev', hev', -, rfl⟩⟩ := Thread.sample_cases hsample
      · exact h
      obtain ⟨hsame, -⟩ := PerfEvent.produce_flags hev'
      have hjoined : ev.notifies = true →
          ∃ rb n, (s.thread.modify x fun _ => ev').At g x rb ev' n := by
        intro hon
        obtain ⟨rb, n, hat⟩ := h.rings x ev hev hon
        exact ⟨rb, n, hat.modify (fun _ => ev')
          (hat.reading.produce e.laidOut_record (fun _ _ _ _ => e.size_record_le) hev').1⟩
      have hwired : ∀ th' : Thread, th'.ring_buffers_ = s.thread.ring_buffers_ →
          th'.events = (s.thread.modify x fun _ => ev').events →
          (∀ y, th'.pending = some y → s.thread.pending = some y ∨ y = x ∧ ev.notifies = true) →
          th'.handler = s.thread.handler → th'.Wired g := by
        intro th' hrings hevents hpending hhandler
        refine h.frame x (fun y _ => by rw [hrings]) (fun y hy => ?_)
          (fun ev₁ hev₁ hon => ?_) (fun ev₀ hev₀ hon => ?_) (fun y hy => ?_)
          (fun y ph hy => h.handler y ph (hhandler ▸ hy))
        · rw [hevents]
          exact Thread.events_modify_ne _ _ _ hy
        · rw [hevents, Thread.events_modify_of_eq _ hev] at hev₁
          cases hev₁
          obtain ⟨rb, n, hat⟩ := hjoined (hsame ▸ hon)
          exact ⟨rb, n, hrings ▸ hat.ring, hevents ▸ hat.event, hat.reading⟩
        · rw [hevents]
          cases hev₀.symm.trans hev
          exact ⟨ev', Thread.events_modify_of_eq _ hev, hsame.trans hon⟩
        · rcases hpending y hy with hold | ⟨rfl, hon⟩
          · exact Or.inl hold
          · exact Or.inr ⟨ev, hev, hon⟩
      split
      case isTrue hon =>
        refine hwired _ rfl rfl (fun y hy => ?_) rfl
        exact (Thread.notify_cases hy).imp_right fun heq => ⟨heq, hon⟩
      case isFalse => exact hwired _ rfl rfl (fun y hy => Or.inl hy) rfl
  | deliver =>
      obtain ⟨th, hdeliver, rfl⟩ := Option.map_eq_some_iff.mp hnext
      obtain ⟨x, hpending, -, -, rfl⟩ := Thread.deliver_cases hdeliver
      refine h.congr rfl rfl (fun y hy => by cases hy) fun y ph hy => ?_
      cases hy
      exact h.pending x hpending
  | handle now =>
      obtain ⟨x, ph, hph, hcase⟩ := Sampler.handle_cases hnext
      obtain ⟨ev, hev, hon⟩ := h.handler x ph hph
      have hk : ∀ {ph' : Phase} y ph'', some (x, ph') = some (y, ph'') →
          ∃ ev, s.thread.events y = some ev ∧ ev.notifies = true := by
        intro ph' y ph'' heq
        cases heq
        exact ⟨ev, hev, hon⟩
      cases ph with
      | entered =>
          subst hcase
          exact h.modify x (f := fun ev => { ev with enabled := false }) (fun _ => rfl)
            (fun _ => rfl) (fun _ => rfl) hk
      | draining =>
          obtain ⟨more, s₁, hround, rfl⟩ := hcase
          obtain ⟨rb, n, hat⟩ := h.rings x ev hev hon
          obtain ⟨rb', m', n', hat', hsame⟩ := hat.processNext hround
          have hwired : s₁.thread.Wired g := by
            refine h.frame x hsame.rings hsame.events (fun ev₁ hev₁ _ => ?_)
              (fun ev₀ hev₀ hon₀ => ?_)
              (fun y hy => Or.inl (hsame.pending ▸ hy))
              fun y ph hy => h.handler y ph (hsame.handler ▸ hy)
            · cases hat'.event.symm.trans hev₁
              exact ⟨rb', n', hat'⟩
            · cases hev₀.symm.trans hev
              exact ⟨_, hat'.event, hon⟩
          cases more with
          | true => exact hwired
          | false =>
              refine hwired.congr rfl rfl hwired.pending fun y ph hy => ?_
              cases hy
              exact ⟨_, hat'.event, hon⟩
      | drained =>
          subst hcase
          exact h.modify x (f := fun ev => { ev with enabled := true }) (fun _ => rfl)
            (fun _ => rfl) (fun _ => rfl) hk
      | enabled =>
          subst hcase
          exact h.congr rfl rfl h.pending fun y ph hy => by cases hy

/-- The new event has a ring that is in order, if it sends signals. -/
theorem event_open (h : th.Wired g) {attr : PerfEventAttribute} {o : OpenOutcome}
    (hring : o.fd ∉ th.ring_buffers_) (hevent : th.events o.fd = none) :
    (th.event_open g attr o).2.Wired g := by
  refine h.frame o.fd (fun x hx => ?_)
    (fun x hx => Thread.events_event_open_ne hring hx) (fun ev' hev' hon => ?_)
    (fun ev hev _ => ?_) (fun x hx => Or.inl ?_) (fun x ph hx => h.handler x ph ?_)
  · rw [Thread.event_open_thread hring]
    show (if o.mapped then th.ring_buffers_.insert o.fd (.new g) else th.ring_buffers_).lookup x = _
    split
    case isTrue => exact AList.lookup_insert_ne hx
    case isFalse => rfl
  · by_cases hnonneg : 0 ≤ o.fd
    · rw [Thread.events_event_open_self hring hnonneg] at hev'
      cases hev'
      have hmapped : o.mapped = true := by
        simp only [PerfEvent.notifies, OpenOutcome.event, Bool.and_eq_true] at hon
        exact hon.1.1.1
      refine ⟨.new g, 0, ?_, Thread.events_event_open_self hring hnonneg,
        Reading.new o.data (by simp [OpenOutcome.event, hmapped]) rfl⟩
      rw [Thread.event_open_thread hring, hmapped]
      exact AList.lookup_insert _
    · rw [Thread.event_open_thread hring, if_neg hnonneg] at hev'
      cases hevent.symm.trans hev'
  · cases hevent.symm.trans hev
  · rw [Thread.event_open_thread hring] at hx
    exact hx
  · rw [Thread.event_open_thread hring] at hx
    exact hx

end Thread.Wired

/-- An event whose ring has been drained has room for a sample. -/
theorem Reading.room {m : PerfMmap} (h : Reading g ev rb ev.accepted.length)
    (hm : ev.mmap = some m) (htail : m.data_tail = m.data_head) (e : SamplingEvent) :
    ∃ ev', ev.produce g e.record = some ev' := by
  obtain ⟨-, -, m', t, q, hm', hholds, -⟩ := h
  cases hm.symm.trans hm'
  rw [List.drop_length] at hholds
  have hwithin := hholds.within
  have hle := hholds.tail_le
  have hcap := g.capacity_ge
  have hlt := RingHolds.capacity_lt g
  rw [streamSize_nil] at hwithin
  have hsame : t = q := by
    rw [hholds.tail_eq, hholds.head_eq, streamSize_nil, Nat.add_zero,
      ofNat_inj_of_le hle (by omega)] at htail
    exact htail
  have hroom : (m.append g e.record).isSome := by
    rw [hholds.append_eq_some_iff, streamSize_nil, e.size_record]
    omega
  obtain ⟨m', hm'⟩ := Option.isSome_iff_exists.mp hroom
  rw [PerfEvent.produce, hm, Option.bind_some, hm']
  exact ⟨_, rfl⟩

/-- **A sample is recorded**, if it is taken while the thread is at rest. -/
theorem records_sample (hat : s.thread.At g fd rb ev n) {p : BufferPtr} {ev' : PerfEvent}
    {e : SamplingEvent} (henabled : ev.enabled = true) (hon : ev.notifies = true)
    (hroom : ev.produce g e.record = some ev') (haddr : e.addr ≠ 0)
    (hdata : s.thread.event_data_ = some p) (hhandler : s.thread.handler = none)
    (hpending : s.thread.pending = none) (hblocked : s.thread.blocked = false) :
    ∃ es s', (samplerMachine g T).exec s es = some s' ∧
      (s.heap p).length < (s'.heap p).length := by
  obtain ⟨hreading, haccepted⟩ :=
    hat.reading.produce e.laidOut_record (fun _ _ _ _ => e.size_record_le) hroom
  have hle := hat.reading.le
  have hjoined := hat.modify (fun _ => ev') hreading
  obtain ⟨th, hth⟩ : ∃ th, th = { (s.thread.modify fd fun _ => ev').notify fd with
    pending := none, handler := some (fd, Phase.entered) } := ⟨_, rfl⟩
  have hsteps : (samplerMachine g T).exec s [.sample fd e, .deliver] = some ⟨th, s.heap⟩ := by
    have hsample : s.thread.sample g fd e
        = some ((s.thread.modify fd fun _ => ev').notify fd) := by
      simp only [Thread.sample, Thread.produce, hat.event, henabled, if_true, hroom,
        Option.map_some, Option.any_some, hon, Bool.and_self]
    have hdeliver : ((s.thread.modify fd fun _ => ev').notify fd).deliver = some th := by
      simp only [hth, Thread.deliver, Thread.notify, Thread.modify_pending, hpending,
        Thread.modify_handler, hhandler, Thread.modify_blocked, hblocked, Option.none_or,
        Bool.false_eq_true, if_false]
    simp only [Machine.exec_cons, samplerMachine, hsample, hdeliver, Option.map_some,
      Option.bind_some, Machine.exec_nil]
  have hth' : th.At g fd rb ev' n := by
    rw [hth]
    exact ⟨hjoined.ring, hjoined.event, hjoined.reading⟩
  obtain ⟨th₂, rb₂, m₂, hrun, -⟩ :=
    signal_handler_eq (s := ⟨th, s.heap⟩) (fun _ => 0) hth' (Nat.lt_succ_self _)
  have hentered : th.handler = some (fd, .entered) := by rw [hth]
  obtain ⟨times, -, hhandle⟩ := exec_signal_handler hentered hrun
  refine ⟨_, _, (Machine.exec_append_eq_some _).mpr ⟨_, hsteps, hhandle⟩, ?_⟩
  -- the record of the sample is among those the handler reads
  have hdata' : th.event_data_ = some p := by rw [hth]; exact hdata
  have hentries : entries T (fun _ => 0) fd 0 (ev'.accepted.drop n) ≠ [] := by
    intro hnil
    have haccess := accesses_entries (T := T) (fun _ => 0) fd 0 (ev'.accepted.drop n)
    rw [hnil, haccepted, List.drop_append_of_le_length hle, List.filterMap_append] at haccess
    have hlast : [e.record].filterMap (Record.access T) ≠ [] := by
      rw [List.filterMap_cons, SamplingEvent.access_record, if_pos haddr]
      exact List.cons_ne_nil _ _
    exact hlast (List.append_eq_nil_iff.mp haccess.symm).2
  show (s.heap p).length < ((s.heap.extend th.event_data_ _) p).length
  rw [hdata', Heap.extend_some, Function.update_self, List.length_append]
  have := List.length_pos_iff.mpr hentries
  omega

/-- **A thread that is to run a handler goes on recording**: when the handler has returned,
its event is enabled, and its ring has room. -/
theorem records_pending (h : s.thread.Wired g) {p : BufferPtr} {x : Fd}
    (hdata : s.thread.event_data_ = some p) (hhandler : s.thread.handler = none)
    (hpending : s.thread.pending = some x) (hblocked : s.thread.blocked = false) :
    ∃ es s', (samplerMachine g T).exec s es = some s' ∧
      (s.heap p).length < (s'.heap p).length := by
  obtain ⟨ev, hev, hon⟩ := h.pending x hpending
  obtain ⟨rb, n, hat⟩ := h.rings x ev hev hon
  obtain ⟨th, hth⟩ : ∃ th, th = { s.thread with pending := none, handler := some (x, .entered) } :=
    ⟨_, rfl⟩
  have hdeliver : (samplerMachine g T).next s .deliver = some ⟨th, s.heap⟩ := by
    simp only [samplerMachine, hth, Thread.deliver, hpending, hhandler, hblocked,
      Bool.false_eq_true, if_false, Option.map_some]
  have hth' : th.At g x rb ev n := by
    rw [hth]
    exact ⟨hat.ring, hat.event, hat.reading⟩
  obtain ⟨th₁, rb₁, m₁, hrun, hat₁, hsame, htail, hhead⟩ :=
    signal_handler_eq (s := ⟨th, s.heap⟩) (fun _ => 0) hth' (Nat.lt_succ_self _)
  have hentered : th.handler = some (x, .entered) := by rw [hth]
  obtain ⟨times, -, hhandle⟩ := exec_signal_handler hentered hrun
  obtain ⟨ev', hroom⟩ := hat₁.reading.room rfl (htail.trans hhead.symm) ⟨0, 0, 1, 0⟩
  have hdata₁ : th₁.event_data_ = some p := hsame.event_data_.trans (by rw [hth]; exact hdata)
  have hpending₁ : th₁.pending = none := hsame.pending.trans (by rw [hth])
  have hblocked₁ : th₁.blocked = false := hsame.blocked.trans (by rw [hth]; exact hblocked)
  generalize hheap : s.heap.extend _ _ = heap at hhandle
  have hat₂ : (Sampler.goto ⟨th₁, heap⟩ none).thread.At g x rb₁ _ _ :=
    ⟨hat₁.ring, hat₁.event, hat₁.reading⟩
  obtain ⟨es, s', hrest, hlt⟩ :=
    records_sample hat₂ rfl hon hroom (by decide) hdata₁ rfl hpending₁ hblocked₁
  refine ⟨.deliver :: (times.map .handle ++ es), s', ?_, lt_of_le_of_lt ?_ hlt⟩
  · rw [Machine.exec_cons, hdeliver]
    exact (Machine.exec_append_eq_some _).mpr ⟨_, hhandle, hrest⟩
  · have hdata' : th.event_data_ = some p := by rw [hth]; exact hdata
    rw [hdata', Heap.extend_some] at hheap
    show (s.heap p).length ≤ (heap p).length
    rw [← hheap, Function.update_self, List.length_append]
    exact Nat.le_add_right _ _

end HandlerRuns

end AccessSampling
