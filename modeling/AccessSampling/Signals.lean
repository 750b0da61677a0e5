import AccessSampling.Batches

/-!
# Samples, signals and handlers

`samplerMachine` interleaves three things on one thread: its enabled events take
samples, `SIGPROF` is delivered, and the handler takes its steps.  This module says
what holds of a thread with open events along any such run.

* `Sampler.Sound` — the invariant: the buffer follows the rings, and the event whose
  handler drains is disabled.
* `no_stranded_samples` — a ring that is not drained has a `SIGPROF` or a handler on
  its way, as long as no sample is taken whose `SIGPROF` is merged into that of
  another event.  A handler drains the one ring it was told about, so the other
  samples stay where they are.

### What `SignalKept` excludes

The condition is about a sample that joins its ring while the `SIGPROF` of *another* event
is pending: its own signal is merged into that one, and no handler will be told of its
ring.  There is no harm if the handler of its own ring has been entered and has yet to
disable the event, since it will find the sample.  A sample that is dropped sends no signal
and is not asked about; and while a handler drains its ring the event is off, so there is
none to ask about.

The condition is exact: `stranded_sample` is one run that breaks it, and
`stranded_of_merged` shows that wherever it is broken a sample stays in its ring.
-/

namespace AccessSampling

open Foundation

section Signals

variable {T : TraceEvents} {g : Geometry} {s s' : Sampler T} {p : BufferPtr} {fds : List Fd}

/-! ### What a step can do -/

/-- Accepting a record spares the event's flags. -/
theorem PerfEvent.produce_flags {ev ev' : PerfEvent} {r : Record}
    (h : ev.produce g r = some ev') :
    ev'.notifies = ev.notifies ∧ ev'.enabled = ev.enabled := by
  rw [PerfEvent.produce, Option.bind_eq_some_iff] at h
  obtain ⟨m, -, h⟩ := h
  obtain ⟨m', -, rfl⟩ := Option.map_eq_some_iff.mp h
  exact ⟨rfl, rfl⟩

/-- A sample is dropped, or joins its event and sends `SIGPROF`. -/
theorem Thread.sample_cases {th th' : Thread} {fd : Fd} {e : SamplingEvent}
    (h : th.sample g fd e = some th') :
    ∃ ev, th.events fd = some ev ∧ ev.enabled = true ∧
      (th' = th ∨ ∃ ev', ev.produce g e.record = some ev' ∧
        (th.produce g fd e.record = some (true, th.modify fd fun _ => ev')) ∧
        th' = if ev.notifies then (th.modify fd fun _ => ev').notify fd
          else th.modify fd fun _ => ev') := by
  obtain ⟨⟨accepted, th₁⟩, hproduce, rfl⟩ := Option.map_eq_some_iff.mp h
  obtain ⟨ev, hev, henabled, ⟨rfl, rfl⟩ | ⟨rfl, ev', hev', rfl⟩⟩ :=
    Thread.produce_cases hproduce
  · exact ⟨ev, hev, henabled, Or.inl rfl⟩
  · refine ⟨ev, hev, henabled, Or.inr ⟨ev', hev', hproduce, ?_⟩⟩
    simp [hev]

/-- The signal that is pending after a sample is an older one, or that of the sample. -/
theorem Thread.notify_cases {th : Thread} {fd x : Fd} (h : (th.notify fd).pending = some x) :
    th.pending = some x ∨ x = fd := by
  rw [Thread.notify] at h
  cases hold : th.pending with
  | none =>
      rw [hold] at h
      cases h
      exact Or.inr rfl
  | some y =>
      rw [hold] at h
      exact Or.inl h

theorem Thread.deliver_cases {th th' : Thread} (h : th.deliver = some th') :
    ∃ fd, th.pending = some fd ∧ th.handler = none ∧ th.blocked = false ∧
      th' = { th with pending := none, handler := some (fd, .entered) } := by
  rw [Thread.deliver] at h
  split at h
  case h_1 fd hpending hhandler =>
    split at h
    case isTrue => cases h
    case isFalse hblocked =>
      cases h
      exact ⟨fd, hpending, hhandler, Bool.eq_false_iff.mpr hblocked, rfl⟩
  case h_2 => cases h

theorem Sampler.handle_cases {now : UInt64} (h : s.handle g now = some s') :
    ∃ fd ph, s.thread.handler = some (fd, ph) ∧ match ph with
      | .entered => s' = Sampler.goto ⟨s.thread.disable_fd fd, s.heap⟩
          (some (fd, if fd ∈ s.thread.ring_buffers_ then .draining else .drained))
      | .draining => ∃ more s₁, s.processNext g now fd = some (more, s₁) ∧
          s' = if more then s₁ else s₁.goto (some (fd, .drained))
      | .drained => s' = Sampler.goto ⟨s.thread.enable_fd fd, s.heap⟩ (some (fd, .enabled))
      | .enabled => s' = s.goto none := by
  rw [Sampler.handle] at h
  split at h
  case h_1 => cases h
  case h_2 fd hph => cases h; exact ⟨fd, _, hph, rfl⟩
  case h_3 fd hph =>
    obtain ⟨⟨more, s₁⟩, hnext, rfl⟩ := Option.map_eq_some_iff.mp h
    exact ⟨fd, _, hph, more, s₁, hnext, rfl⟩
  case h_4 fd hph => cases h; exact ⟨fd, _, hph, rfl⟩
  case h_5 fd hph => cases h; exact ⟨fd, _, hph, rfl⟩

/-! ### What holds of every run -/

theorem Thread.CaughtUp.of_sameBut {th th' : Thread} {fd x : Fd} (h : th.SameBut fd th')
    (hx : x ≠ fd) (hcaught : th.CaughtUp x) : th'.CaughtUp x := by
  obtain ⟨rb, m, hrb, hm, hprev⟩ := hcaught
  refine ⟨rb, m, (h.rings x hx).trans hrb, ?_, hprev⟩
  rw [Thread.mmapOf, h.events x hx]
  exact hm

/-- A round of the loop concerns its own ring only, spares the event's flags, and finds
nothing only when everything has been read. -/
theorem Sampler.Follows.next (h : s.Follows g p fds) {fd : Fd} {now : UInt64} {more : Bool}
    (hfd : fd ∈ fds) (hnext : s.processNext g now fd = some (more, s')) :
    s'.Follows g p fds ∧ s.thread.SameBut fd s'.thread ∧
      (∃ ev m, s.thread.events fd = some ev ∧
        s'.thread.events fd = some { ev with mmap := some m }) ∧
      (more = false → s'.thread.CaughtUp fd) := by
  obtain ⟨rb, ev, n, hat, hlog⟩ := h.rings fd hfd
  rcases Nat.eq_or_lt_of_le hat.reading.le with hcaught | hlt
  · rw [hcaught] at hat hlog
    obtain ⟨th', m', heq, hat', hsame, -, hhead⟩ := processNext_caught now hat
    cases heq.symm.trans hnext
    have hheap : s.heap p = s.heap p ++ [] := (List.append_nil _).symm
    refine ⟨h.frame hfd hsame hat' hheap (by simp) hlog, hsame,
      ⟨ev, m', hat.event, hat'.event⟩, fun _ => ⟨rb, m', hat'.ring, ?_, hhead.symm⟩⟩
    rw [Thread.mmapOf, hat'.event, Option.bind_some]
  · obtain ⟨th', rb', m', heq, hat', hsame⟩ := processNext_behind now hat hlt
    cases heq.symm.trans hnext
    have hentry : (ev.accepted[n]).entries T now fd
        = entries T (fun _ => now) fd 0 [ev.accepted[n]] := by
      rw [entries, entries, List.append_nil]
    have hheap : s.heap.extend s.thread.event_data_ ((ev.accepted[n]).entries T now fd) p
        = s.heap p ++ (ev.accepted[n]).entries T now fd := by
      rw [h.buffer, Heap.extend_some, Function.update_self]
    refine ⟨h.frame hfd hsame hat' hheap (fun x hx => ?_) ?_, hsame,
      ⟨ev, m', hat.event, hat'.event⟩, fun hmore => by cases hmore⟩
    · rw [hentry] at hx
      exact fd_of_mem_entries hx
    · simp only [hheap, accesses_append, hlog]
      rw [hentry, accesses_entries, ← List.filterMap_append, List.take_append_getElem hlt]

/-- **The invariant of a thread with open events.**  The buffer follows the rings, only
the thread's own events send signals, and the event whose handler drains is off. -/
structure Sampler.Sound (g : Geometry) (p : BufferPtr) (fds : List Fd) (s : Sampler T) :
    Prop where
  follows : s.Follows g p fds
  unblocked : s.thread.blocked = false
  event_mem : ∀ x ev, s.thread.events x = some ev → x ∈ fds ∧ ev.notifies = true
  pending_mem : ∀ x, s.thread.pending = some x → x ∈ fds
  handler_mem : ∀ x ph, s.thread.handler = some (x, ph) → x ∈ fds
  off : ∀ x ph ev, s.thread.handler = some (x, ph) → ph = .draining ∨ ph = .drained →
    s.thread.events x = some ev → ev.enabled = false

/-- An event is still there, and neither its configuration nor its state has changed. -/
def Thread.FlagsKept (th th' : Thread) : Prop :=
  ∀ x ev', th'.events x = some ev' → ∃ ev, th.events x = some ev ∧
    ev'.notifies = ev.notifies ∧ ev'.enabled = ev.enabled

theorem Thread.SameBut.flagsKept {th th' : Thread} {fd : Fd} {ev ev' : PerfEvent}
    (h : th.SameBut fd th') (hev : th.events fd = some ev) (hev' : th'.events fd = some ev')
    (hnotifies : ev'.notifies = ev.notifies) (henabled : ev'.enabled = ev.enabled) :
    th.FlagsKept th' := by
  intro x evx hx
  by_cases hxfd : x = fd
  · subst hxfd
    cases hx.symm.trans hev'
    exact ⟨ev, hev, hnotifies, henabled⟩
  · exact ⟨evx, (h.events x hxfd).symm.trans hx, rfl, rfl⟩

namespace Sampler.Sound

/-- Steps that change no flag, no mask and no handler. -/
theorem of_flagsKept (h : s.Sound g p fds) (hfollows : s'.Follows g p fds)
    (hflags : s.thread.FlagsKept s'.thread) (hblocked : s'.thread.blocked = s.thread.blocked)
    (hpending : ∀ x, s'.thread.pending = some x → x ∈ fds)
    (hhandler : s'.thread.handler = s.thread.handler) : s'.Sound g p fds := by
  refine ⟨hfollows, hblocked.trans h.unblocked, fun x ev' hx => ?_, hpending,
    hhandler ▸ h.handler_mem, fun x ph ev' hph hoff hx => ?_⟩
  · obtain ⟨ev, hev, hnotifies, -⟩ := hflags x ev' hx
    exact ⟨(h.event_mem x ev hev).1, hnotifies.trans (h.event_mem x ev hev).2⟩
  · obtain ⟨ev, hev, -, henabled⟩ := hflags x ev' hx
    exact henabled.trans (h.off x ph ev (hhandler ▸ hph) hoff hev)

theorem opened (attr : Fd → PerfEventAttribute) (data : Fd → ℕ → UInt8) (d : Descriptors) :
    (Sampler.opened g T attr data p d).Sound g p d.fds := by
  have h : Thread.IsOpened g attr data p d.fds (Thread.opened g attr data p d.fds) :=
    Thread.isOpened_opened d.nodup d.pos
  refine ⟨.opened attr data d, h.blocked, fun x ev hev => ?_, fun x hx => ?_,
    fun x ph hx => ?_, fun x ph ev hx => ?_⟩
  · rw [Sampler.opened, h.events] at hev
    split at hev
    case isTrue hx =>
      cases hev
      exact ⟨hx, event_success_notifies (d.pos x hx) (attr x) (data x)⟩
    case isFalse => cases hev
  · rw [Sampler.opened, h.pending] at hx
    cases hx
  · rw [Sampler.opened, h.handler] at hx
    cases hx
  · rw [Sampler.opened, h.handler] at hx
    cases hx

theorem sample (h : s.Sound g p fds) {fd : Fd} {e : SamplingEvent} {th : Thread}
    (hsample : s.thread.sample g fd e = some th) :
    (⟨th, s.heap⟩ : Sampler T).Sound g p fds := by
  obtain ⟨ev, hev, henabled, rfl | ⟨ev', hev', hproduce, rfl⟩⟩ := Thread.sample_cases hsample
  · exact h
  obtain ⟨hfd, hnotifies⟩ := h.event_mem fd ev hev
  obtain ⟨hsamenotifies, hsameenabled⟩ := PerfEvent.produce_flags hev'
  have hwf : WellFormed g s (.produce fd e.record) :=
    wellFormed_of_le e.laidOut_record e.size_record_le
  rw [if_pos hnotifies]
  refine h.of_flagsKept ((h.follows.produce hwf hproduce).congr rfl rfl rfl) ?_ rfl
    (fun x hx => ?_) rfl
  · exact (s.thread.sameBut_modify fd _).flagsKept hev
      (Thread.events_modify_of_eq _ hev) hsamenotifies hsameenabled
  · rcases Thread.notify_cases hx with hold | rfl
    · exact h.pending_mem x hold
    · exact hfd

theorem deliver (h : s.Sound g p fds) {th : Thread} (hdeliver : s.thread.deliver = some th) :
    (⟨th, s.heap⟩ : Sampler T).Sound g p fds := by
  obtain ⟨fd, hpending, -, -, rfl⟩ := Thread.deliver_cases hdeliver
  refine ⟨h.follows.congr rfl rfl rfl, h.unblocked, h.event_mem, fun x hx => (by cases hx),
    fun x ph hx => ?_, fun x ph ev hx hoff => ?_⟩
  · cases hx
    exact h.pending_mem fd hpending
  · cases hx
    simp at hoff

/-- Steps of the handler that change at most whether its event is enabled. -/
theorem goto_modify (h : s.Sound g p fds) {fd : Fd} {f : PerfEvent → PerfEvent}
    {k : Option (Fd × Phase)} (hmmap : ∀ ev, (f ev).mmap = ev.mmap)
    (haccepted : ∀ ev, (f ev).accepted = ev.accepted)
    (hnotifies : ∀ ev, (f ev).notifies = ev.notifies) (hk : ∀ x ph, k = some (x, ph) → x ∈ fds)
    (hoff : ∀ x ph ev, k = some (x, ph) → ph = .draining ∨ ph = .drained →
      (s.thread.modify fd f).events x = some ev → ev.enabled = false) :
    (Sampler.goto ⟨s.thread.modify fd f, s.heap⟩ k : Sampler T).Sound g p fds := by
  refine ⟨(h.follows.modify fd f hmmap haccepted).congr rfl rfl rfl, h.unblocked,
    fun x ev' hx => ?_, h.pending_mem, hk, hoff⟩
  by_cases hxfd : x = fd
  · subst hxfd
    obtain ⟨ev, hev, rfl⟩ := Option.map_eq_some_iff.mp
      ((Thread.events_modify_self s.thread x f).symm.trans hx)
    exact ⟨(h.event_mem x ev hev).1, (hnotifies ev).trans (h.event_mem x ev hev).2⟩
  · exact h.event_mem x ev' ((Thread.events_modify_ne s.thread fd f hxfd).symm.trans hx)

theorem handle (h : s.Sound g p fds) {now : UInt64} (hhandle : s.handle g now = some s') :
    s'.Sound g p fds := by
  obtain ⟨fd, ph, hph, hcase⟩ := Sampler.handle_cases hhandle
  have hfd := h.handler_mem fd ph hph
  cases ph with
  | entered =>
      subst hcase
      rw [if_pos ((h.follows.mem_rings fd).mpr hfd)]
      refine h.goto_modify (fun _ => rfl) (fun _ => rfl) (fun _ => rfl)
        (fun x ph hx => by cases hx; exact hfd)
        fun x ph ev' hx _ hev' => ?_
      cases hx
      obtain ⟨ev, -, rfl⟩ := Option.map_eq_some_iff.mp
        ((Thread.events_modify_self s.thread fd _).symm.trans hev')
      rfl
  | draining =>
      obtain ⟨more, s₁, hnext, rfl⟩ := hcase
      obtain ⟨hfollows, hsame, ⟨ev, m, hev, hev'⟩, -⟩ := h.follows.next hfd hnext
      have hsound : s₁.Sound g p fds :=
        h.of_flagsKept hfollows (hsame.flagsKept hev hev' rfl rfl) hsame.blocked
          (hsame.pending ▸ h.pending_mem) hsame.handler
      cases more with
      | true => exact hsound
      | false =>
          refine ⟨hfollows.congr rfl rfl rfl, hsound.unblocked, hsound.event_mem,
            hsound.pending_mem, fun x ph hx => (by cases hx; exact hfd),
            fun x ph ev' hx _ hev' => ?_⟩
          cases hx
          exact hsound.off fd .draining ev' (hsame.handler.trans hph) (Or.inl rfl) hev'
  | drained =>
      subst hcase
      refine h.goto_modify (fun _ => rfl) (fun _ => rfl) (fun _ => rfl)
        (fun x ph hx => by cases hx; exact hfd)
        fun x ph ev' hx hoff _ => ?_
      cases hx
      simp at hoff
  | enabled =>
      subst hcase
      exact ⟨h.follows.congr rfl rfl rfl, h.unblocked, h.event_mem, h.pending_mem,
        fun x ph hx => (by cases hx), fun x ph ev hx => (by cases hx)⟩

theorem step (h : s.Sound g p fds) {e : SamplerEvent}
    (hnext : (samplerMachine g T).next s e = some s') : s'.Sound g p fds := by
  cases e with
  | sample fd e =>
      obtain ⟨th, hsample, rfl⟩ := Option.map_eq_some_iff.mp hnext
      exact h.sample hsample
  | deliver =>
      obtain ⟨th, hdeliver, rfl⟩ := Option.map_eq_some_iff.mp hnext
      exact h.deliver hdeliver
  | handle now => exact h.handle hnext

end Sampler.Sound

/-! ### Stranded samples -/

/-- The `SIGPROF` of a sample that the ring has room for is not merged into that of
another event, unless the handler is still to drain the ring. -/
def SignalKept (g : Geometry) (s : Sampler T) : SamplerEvent → Prop
  | .sample fd e => ∀ th, s.thread.produce g fd e.record = some (true, th) →
      s.thread.pending = none ∨ s.thread.pending = some fd ∨
        s.thread.handler = some (fd, .entered)
  | _ => True

/-- A ring with unread records has a `SIGPROF` or a handler on its way. -/
def Sampler.Covered (fds : List Fd) (s : Sampler T) : Prop :=
  ∀ fd ∈ fds, s.thread.CaughtUp fd ∨ s.thread.pending = some fd ∨
    s.thread.handler = some (fd, .entered) ∨ s.thread.handler = some (fd, .draining)

theorem Thread.CaughtUp.modify {th : Thread} {x : Fd} (h : th.CaughtUp x) (fd : Fd)
    {f : PerfEvent → PerfEvent} (hmmap : ∀ ev, (f ev).mmap = ev.mmap) :
    (th.modify fd f).CaughtUp x := by
  obtain ⟨rb, m, hrb, hm, hprev⟩ := h
  refine ⟨rb, m, hrb, ?_, hprev⟩
  by_cases hx : x = fd
  · subst hx
    rw [Thread.mmapOf, Thread.events_modify_self, ← hm, Thread.mmapOf]
    cases th.events x with
    | none => rfl
    | some ev => exact hmmap ev
  · rw [Thread.mmapOf, Thread.events_modify_ne _ _ _ hx]
    exact hm

namespace Sampler.Covered

theorem opened (attr : Fd → PerfEventAttribute) (data : Fd → ℕ → UInt8) (d : Descriptors) :
    (Sampler.opened g T attr data p d).Covered d.fds := by
  intro fd hfd
  have h : Thread.IsOpened g attr data p d.fds (Thread.opened g attr data p d.fds) :=
    Thread.isOpened_opened d.nodup d.pos
  have hat := h.at_of_mem hfd (d.pos fd hfd)
  obtain ⟨m, hm, hmmap⟩ := hat.mmapOf
  exact Or.inl ⟨_, m, hat.ring, hm, (hat.reading.prev_eq_head_iff hmmap).mpr rfl⟩

theorem sample (h : s.Covered fds) (hsound : s.Sound g p fds) {fd : Fd} {e : SamplingEvent}
    {th : Thread} (hkept : SignalKept g s (.sample fd e))
    (hsample : s.thread.sample g fd e = some th) :
    (⟨th, s.heap⟩ : Sampler T).Covered fds := by
  obtain ⟨ev, hev, -, rfl | ⟨ev', -, hproduce, rfl⟩⟩ := Thread.sample_cases hsample
  · exact h
  rw [if_pos (hsound.event_mem fd ev hev).2]
  intro x hx
  by_cases hxfd : x = fd
  · subst hxfd
    -- the ring the sample has joined
    rcases hkept _ hproduce with hnone | hsome | hentered
    · refine Or.inr (Or.inl ?_)
      rw [Thread.notify, Thread.modify_pending, hnone]
      rfl
    · refine Or.inr (Or.inl ?_)
      rw [Thread.notify, Thread.modify_pending, hsome]
      rfl
    · exact Or.inr (Or.inr (Or.inl hentered))
  · rcases h x hx with hcaught | hpending | hhandler
    · have hsame := s.thread.sameBut_modify fd fun _ => ev'
      have hstill : (s.thread.modify fd fun _ => ev').CaughtUp x :=
        hcaught.of_sameBut hsame hxfd
      exact Or.inl hstill
    · refine Or.inr (Or.inl ?_)
      rw [Thread.notify, Thread.modify_pending, hpending]
      rfl
    · exact Or.inr (Or.inr hhandler)

theorem deliver (h : s.Covered fds) {th : Thread} (hdeliver : s.thread.deliver = some th) :
    (⟨th, s.heap⟩ : Sampler T).Covered fds := by
  obtain ⟨fd, hpending, hhandler, -, rfl⟩ := Thread.deliver_cases hdeliver
  intro x hx
  rcases h x hx with hcaught | hx | hx | hx
  · exact Or.inl hcaught
  · rw [hpending] at hx
    cases hx
    exact Or.inr (Or.inr (Or.inl rfl))
  · rw [hhandler] at hx
    cases hx
  · rw [hhandler] at hx
    cases hx

theorem handle (h : s.Covered fds) (hsound : s.Sound g p fds) {now : UInt64}
    (hhandle : s.handle g now = some s') : s'.Covered fds := by
  obtain ⟨fd, ph, hph, hcase⟩ := Sampler.handle_cases hhandle
  have hfd := hsound.handler_mem fd ph hph
  -- what covers a ring is either unchanged or the handler itself
  have hother : ∀ x ∈ fds, s.thread.CaughtUp x ∨ s.thread.pending = some x ∨
      x = fd ∧ (ph = .entered ∨ ph = .draining) := by
    intro x hx
    rcases h x hx with hcaught | hpending | hhandler | hhandler
    · exact Or.inl hcaught
    · exact Or.inr (Or.inl hpending)
    · rw [hph] at hhandler
      cases hhandler
      exact Or.inr (Or.inr ⟨rfl, Or.inl rfl⟩)
    · rw [hph] at hhandler
      cases hhandler
      exact Or.inr (Or.inr ⟨rfl, Or.inr rfl⟩)
  intro x hx
  cases ph with
  | entered =>
      subst hcase
      rw [if_pos ((hsound.follows.mem_rings fd).mpr hfd)]
      rcases hother x hx with hcaught | hpending | ⟨rfl, -⟩
      · exact Or.inl (hcaught.modify fd fun _ => rfl)
      · exact Or.inr (Or.inl hpending)
      · exact Or.inr (Or.inr (Or.inr rfl))
  | draining =>
      obtain ⟨more, s₁, hnext, rfl⟩ := hcase
      obtain ⟨-, hsame, -, hcaught₁⟩ := hsound.follows.next hfd hnext
      have hcover : x ≠ fd → s₁.thread.CaughtUp x ∨ s₁.thread.pending = some x := by
        intro hxfd
        rcases hother x hx with hcaught | hpending | ⟨rfl, -⟩
        · exact Or.inl (hcaught.of_sameBut hsame hxfd)
        · exact Or.inr (hsame.pending.trans hpending)
        · exact absurd rfl hxfd
      cases more with
      | true =>
          by_cases hxfd : x = fd
          · subst hxfd
            exact Or.inr (Or.inr (Or.inr (hsame.handler.trans hph)))
          · rcases hcover hxfd with hcaught | hpending
            · exact Or.inl hcaught
            · exact Or.inr (Or.inl hpending)
      | false =>
          by_cases hxfd : x = fd
          · subst hxfd
            exact Or.inl (hcaught₁ rfl)
          · rcases hcover hxfd with hcaught | hpending
            · exact Or.inl hcaught
            · exact Or.inr (Or.inl hpending)
  | drained =>
      subst hcase
      rcases hother x hx with hcaught | hpending | ⟨-, hph | hph⟩
      · exact Or.inl (hcaught.modify fd fun _ => rfl)
      · exact Or.inr (Or.inl hpending)
      · cases hph
      · cases hph
  | enabled =>
      subst hcase
      rcases hother x hx with hcaught | hpending | ⟨-, hph | hph⟩
      · exact Or.inl hcaught
      · exact Or.inr (Or.inl hpending)
      · cases hph
      · cases hph

theorem step (h : s.Covered fds) (hsound : s.Sound g p fds) {e : SamplerEvent}
    (hkept : SignalKept g s e) (hnext : (samplerMachine g T).next s e = some s') :
    s'.Covered fds := by
  cases e with
  | sample fd e =>
      obtain ⟨th, hsample, rfl⟩ := Option.map_eq_some_iff.mp hnext
      exact h.sample hsound hkept hsample
  | deliver =>
      obtain ⟨th, hdeliver, rfl⟩ := Option.map_eq_some_iff.mp hnext
      exact h.deliver hdeliver
  | handle now => exact h.handle hsound hnext

end Sampler.Covered

/-- **No stranded samples**, as long as no `SIGPROF` is merged into that of another
event.  In every state reached in which none is pending and no handler runs, every
ring has been drained: what the thread's buffer says about an event is the
filter-map of all the records the kernel has accepted for it. -/
theorem no_stranded_samples (attr : Fd → PerfEventAttribute) (data : Fd → ℕ → UInt8)
    (p : BufferPtr) (d : Descriptors) {es : List SamplerEvent} {s : Sampler T}
    (hkept : (samplerMachine g T).Along (SignalKept g)
      (Sampler.opened g T attr data p d) es)
    (hrun : (samplerMachine g T).exec (Sampler.opened g T attr data p d) es = some s)
    (hpending : s.thread.pending = none) (hhandler : s.thread.handler = none) :
    ∀ fd ∈ d.fds, s.thread.CaughtUp fd ∧
      accesses fd (s.heap p) = (s.thread.accepted fd).filterMap (Record.access T) := by
  obtain ⟨hsound, hcovered⟩ : s.Sound g p d.fds ∧ s.Covered d.fds :=
    (samplerMachine g T).exec_invariant
      (I := fun s => s.Sound g p d.fds ∧ s.Covered d.fds)
      (fun _ _ _ ⟨hsound, hcovered⟩ hkept hnext =>
        ⟨hsound.step hnext, hcovered.step hsound hkept hnext⟩)
      ⟨.opened attr data d, .opened (p := p) attr data d⟩ hkept hrun
  intro fd hfd
  have hcaught : s.thread.CaughtUp fd := by
    rcases hcovered fd hfd with hcaught | h | h | h
    · exact hcaught
    · rw [hpending] at h
      cases h
    · rw [hhandler] at h
      cases h
    · rw [hhandler] at h
      cases h
  exact ⟨hcaught, hsound.follows.accesses_of_caughtUp hcaught⟩

end Signals

/-- A load of a thread's own. -/
def aLoad : SamplingEvent := ⟨0, 0x401000, 0x7ffe0010, 0x2⟩

/-- A thread that samples loads and stores. -/
def loadsAndStores : Sampler .perf :=
  Sampler.opened .x86 .perf (fun _ => samplingAttribute 128 1000 0x1cd) (fun _ _ => 0) 0
    ⟨[4, 3], by decide, by decide⟩

set_option maxRecDepth 10000 in
/-- A store is sampled while the handler drains the ring of the loads. -/
theorem no_stranded_samples_in_turn :
    let turn : List SamplerEvent :=
      [.deliver, .handle 7, .handle 7, .handle 7, .handle 7, .handle 7]
    let es : List SamplerEvent :=
      [.sample 3 aLoad, .deliver, .handle 7, .sample 4 aLoad, .handle 7, .handle 7,
        .handle 7, .handle 7] ++ turn
    ∃ s, (samplerMachine .x86 .perf).exec loadsAndStores es = some s ∧
      accesses 3 (s.heap 0) = (s.thread.accepted 3).filterMap (Record.access .perf) ∧
      accesses 4 (s.heap 0) = (s.thread.accepted 4).filterMap (Record.access .perf) := by
  intro turn es
  have hkept : (samplerMachine .x86 .perf).Along (SignalKept .x86) loadsAndStores es := by
    refine Machine.along_of_checks _ (b := fun s e => match e with
      | .sample fd _ => s.thread.pending = none ∨ s.thread.pending = some fd
      | _ => true) (fun s e he => ?_) (by decide +kernel)
    cases e with
    | sample fd e =>
        intro th _
        rcases of_decide_eq_true he with hnone | hsome
        · exact Or.inl hnone
        · exact Or.inr (Or.inl hsome)
    | deliver => trivial
    | handle now => trivial
  have hlast : ((samplerMachine .x86 .perf).exec loadsAndStores es).map
      (fun s => (s.thread.pending, s.thread.handler)) = some (none, none) := by
    decide +kernel
  obtain ⟨s, hrun, hs⟩ := Option.map_eq_some_iff.mp hlast
  have hpending : s.thread.pending = none := (Prod.mk.inj hs).1
  have hhandler : s.thread.handler = none := (Prod.mk.inj hs).2
  have h := no_stranded_samples _ _ 0 _ hkept hrun hpending hhandler
  exact ⟨s, hrun, (h 3 (by decide)).2, (h 4 (by decide)).2⟩

set_option maxRecDepth 10000 in
/-- A load and a store are sampled before `SIGPROF` is delivered: the handler drains the
ring of the loads, and the sample of the store stays where it is. -/
theorem stranded_sample :
    ¬ ∀ (d : Descriptors) (es : List SamplerEvent) (s : Sampler .perf),
      (samplerMachine .x86 .perf).exec (Sampler.opened .x86 .perf
        (fun _ => samplingAttribute 128 1000 0x1cd) (fun _ _ => 0) 0 d) es = some s →
      s.thread.pending = none → s.thread.handler = none →
      ∀ fd ∈ d.fds, accesses fd (s.heap 0)
        = (s.thread.accepted fd).filterMap (Record.access .perf) := by
  intro hall
  have hlast : ((samplerMachine .x86 .perf).exec loadsAndStores
      [.sample 3 aLoad, .sample 4 aLoad, .deliver, .handle 7, .handle 7, .handle 7,
        .handle 7, .handle 7]).map (fun s => (s.thread.pending, s.thread.handler,
          (accesses 4 (s.heap 0)).length,
          ((s.thread.accepted 4).filterMap (Record.access .perf)).length))
      = some (none, none, 0, 1) := by
    decide +kernel
  obtain ⟨s, hrun, hs⟩ := Option.map_eq_some_iff.mp hlast
  simp only [Prod.mk.injEq] at hs
  obtain ⟨hpending, hhandler, hread, haccepted⟩ := hs
  have h := hall ⟨[4, 3], by decide, by decide⟩ _ s hrun hpending hhandler 4 (by decide)
  rw [h] at hread
  omega

end AccessSampling
