import AccessSampling.Signals

/-!
# Samples of the handler itself

`signal_handler` disables the event it was told about while it drains that event's
ring, so that its own loads and stores are not sampled.  The other events of the
thread stay enabled.

`never_samples_itself_iff` — nothing samples the handler, in any run, exactly when
the thread has at most one event.

`SelfFree` speaks of the states between `disable (fd)` and `enable (fd)`.  It asks for
two things there: that every event of the thread is off, and that no step that takes a
sample is enabled.  Before and after, the event of the handler is on, and may sample its
first and last instructions.
-/

namespace AccessSampling

open Foundation

/-- The handler is between its `disable (fd)` and its `enable (fd)`. -/
def Thread.Draining (th : Thread) : Prop :=
  ∃ fd ph, th.handler = some (fd, ph) ∧ (ph = .draining ∨ ph = .drained)

section SelfSampling

variable {T : TraceEvents} {g : Geometry} {s : Sampler T} {p : BufferPtr} {fds : List Fd}

/-- While the handler drains, no event is enabled, and no sample can be taken. -/
def SelfFree (g : Geometry) (s : Sampler T) : Prop :=
  s.thread.Draining →
    (∀ x ev, s.thread.events x = some ev → ev.enabled = false) ∧
    ∀ x e, (samplerMachine g T).next s (.sample x e) = none

/-- An event that is not enabled takes no sample. -/
theorem sample_of_disabled {th : Thread} {x : Fd}
    (h : ∀ ev, th.events x = some ev → ev.enabled = false) (e : SamplingEvent) :
    th.sample g x e = none := by
  rw [Thread.sample, Option.map_eq_none_iff, Thread.produce]
  cases hev : th.events x with
  | none => rfl
  | some ev => simp [h ev hev]

/-- With one event, disabling it is enough. -/
theorem Sampler.Sound.selfFree (h : s.Sound g p fds) (hone : fds.length ≤ 1) :
    SelfFree g s := by
  rintro ⟨fd, ph, hph, hoff⟩
  have hdisabled : ∀ x ev, s.thread.events x = some ev → ev.enabled = false := by
    intro x ev hev
    have hx := (h.event_mem x ev hev).1
    have hfd := h.handler_mem fd ph hph
    have hsame : x = fd := by
      rw [List.mem_iff_getElem] at hx hfd
      obtain ⟨i, hi, rfl⟩ := hx
      obtain ⟨j, hj, rfl⟩ := hfd
      congr 1
      omega
    exact h.off fd ph ev hph hoff (hsame ▸ hev)
  refine ⟨hdisabled, fun x e => ?_⟩
  rw [samplerMachine]
  simp only [sample_of_disabled fun ev => hdisabled x ev, Option.map_none]

/-- A thread with open events takes a sample of any of them. -/
theorem sample_opened (attr : Fd → PerfEventAttribute) (data : Fd → ℕ → UInt8)
    (d : Descriptors) {fd : Fd} (hfd : fd ∈ d.fds) (e : SamplingEvent) :
    ∃ ev', (Thread.opened g attr data p d.fds).sample g fd e
      = some (((Thread.opened g attr data p d.fds).modify fd fun _ => ev').notify fd) := by
  have h : Thread.IsOpened g attr data p d.fds (Thread.opened g attr data p d.fds) :=
    Thread.isOpened_opened d.nodup d.pos
  have hpos := d.pos fd hfd
  have hev := (h.at_of_mem hfd hpos).event
  have hmmap : (Thread.openedEvent attr data fd).mmap = some ⟨0, 0, data fd⟩ := by
    simp [Thread.openedEvent, OpenOutcome.success, OpenOutcome.event, OpenOutcome.mapped,
      hpos]
  obtain ⟨m, hm⟩ : ∃ m, PerfMmap.append g ⟨0, 0, data fd⟩ e.record = some m := by
    have hcap := g.capacity_ge
    rw [← Option.isSome_iff_exists, (RingHolds.init g (data fd)).append_eq_some_iff,
      streamSize_nil, e.size_record]
    omega
  obtain ⟨ev', hproduce⟩ : ∃ ev', (Thread.openedEvent attr data fd).produce g e.record
      = some ev' := by
    rw [PerfEvent.produce, hmmap, Option.bind_some, hm]
    exact ⟨_, rfl⟩
  have hnotifies : (Thread.openedEvent attr data fd).notifies = true :=
    event_success_notifies hpos (attr fd) (data fd)
  have henabled : (Thread.openedEvent attr data fd).enabled = true := rfl
  refine ⟨ev', ?_⟩
  simp only [Thread.sample, Thread.produce, hev, henabled, if_true, hproduce,
    Option.map_some, Option.any_some, hnotifies, Bool.and_self]

/-- With another event, the handler of the first leaves the second enabled. -/
theorem samples_itself (attr : Fd → PerfEventAttribute) (data : Fd → ℕ → UInt8)
    (d : Descriptors) (hmany : 1 < d.fds.length) :
    ∃ es s, (samplerMachine g T).exec (Sampler.opened g T attr data p d) es = some s ∧
      ¬ SelfFree g s := by
  have h : Thread.IsOpened g attr data p d.fds (Thread.opened g attr data p d.fds) :=
    Thread.isOpened_opened d.nodup d.pos
  obtain ⟨a, b, ha, hb, hab⟩ : ∃ a b, a ∈ d.fds ∧ b ∈ d.fds ∧ b ≠ a := by
    refine ⟨d.fds[0], d.fds[1], List.getElem_mem _, List.getElem_mem _, fun heq => ?_⟩
    exact absurd ((d.nodup.getElem_inj_iff).mp heq) (by decide)
  -- the first event takes a sample
  obtain ⟨ev', hsample⟩ := sample_opened (g := g) (p := p) attr data d ha ⟨0, 0, 1, 0⟩
  obtain ⟨th, hth⟩ : ∃ th, th = ((Thread.opened g attr data p d.fds).modify a
    fun _ => ev').notify a := ⟨_, rfl⟩
  rw [← hth] at hsample
  have hpending : th.pending = some a := by
    rw [hth, Thread.notify, Thread.modify_pending, h.pending]
    rfl
  have hhandler : th.handler = none := hth ▸ h.handler
  have hblocked : th.blocked = false := hth ▸ h.blocked
  have hring : a ∈ th.ring_buffers_ := hth ▸ h.mem_rings_iff.mpr ha
  have hother : th.events b = some (Thread.openedEvent attr data b) := by
    have hb' := h.events b
    rw [if_pos hb] at hb'
    rw [hth]
    exact (Thread.events_modify_ne _ a _ hab).trans hb'
  -- and its handler disables it
  have hdeliver : th.deliver
      = some { th with pending := none, handler := some (a, .entered) } := by
    simp only [Thread.deliver, hpending, hhandler, hblocked, Bool.false_eq_true, if_false]
  obtain ⟨th', hth'⟩ : ∃ th', th' =
      { th with pending := none, handler := some (a, Phase.entered) } := ⟨_, rfl⟩
  rw [← hth'] at hdeliver
  have hhandle : Sampler.handle g 0 (⟨th', fun _ => []⟩ : Sampler T)
      = some (Sampler.goto ⟨th'.disable_fd a, fun _ => []⟩ (some (a, .draining))) := by
    have hring' : a ∈ th'.ring_buffers_ := hth' ▸ hring
    have hentered : th'.handler = some (a, .entered) := by rw [hth']
    simp only [Sampler.handle, hentered, if_pos hring']
  refine ⟨[.sample a ⟨0, 0, 1, 0⟩, .deliver, .handle 0],
    Sampler.goto ⟨th'.disable_fd a, fun _ => []⟩ (some (a, .draining)), ?_, fun hfree => ?_⟩
  · simp only [Machine.exec_cons, samplerMachine, Sampler.opened, hsample, hdeliver, hhandle,
      Option.map_some, Option.bind_some, Machine.exec_nil]
  · have hother' : (th'.disable_fd a).events b = some (Thread.openedEvent attr data b) := by
      rw [Thread.disable_fd, Thread.events_modify_ne _ _ _ hab, hth']
      exact hother
    have hoff := (hfree ⟨a, .draining, rfl, Or.inl rfl⟩).1 b _ hother'
    cases hoff

/-- **The profiler never samples itself exactly when** the thread has at most one event. -/
theorem never_samples_itself_iff (attr : Fd → PerfEventAttribute) (data : Fd → ℕ → UInt8)
    (p : BufferPtr) (d : Descriptors) :
    (∀ es s, (samplerMachine g T).exec (Sampler.opened g T attr data p d) es = some s →
        SelfFree g s) ↔ d.fds.length ≤ 1 := by
  constructor
  · intro hfree
    by_contra hmany
    obtain ⟨es, s, hrun, hself⟩ :=
      samples_itself (g := g) (T := T) (p := p) attr data d (Nat.lt_of_not_le hmany)
    exact hself (hfree es s hrun)
  · intro hone es s hrun
    have hsound : s.Sound g p d.fds :=
      (samplerMachine g T).exec_preserves (fun _ _ _ h hnext => h.step hnext)
        (.opened attr data d) hrun
    exact hsound.selfFree hone

end SelfSampling

set_option maxRecDepth 10000 in
/-- While the handler drains the ring of the loads, an access of its own is sampled by
the event of the stores. -/
theorem handler_sampled :
    ¬ ∀ (d : Descriptors) (es : List SamplerEvent) (s : Sampler .perf),
      (samplerMachine .x86 .perf).exec (Sampler.opened .x86 .perf
        (fun _ => samplingAttribute 128 1000 0x1cd) (fun _ _ => 0) 0 d) es = some s →
      SelfFree .x86 s := by
  intro hall
  have hlast : ((samplerMachine .x86 .perf).exec loadsAndStores
      [.sample 3 aLoad, .deliver, .handle 7]).map (fun s => (s.thread.handler,
        ((samplerMachine .x86 .perf).next s (.sample 4 aLoad)).isSome))
      = some (some (3, .draining), true) := by
    decide +kernel
  obtain ⟨s, hrun, hs⟩ := Option.map_eq_some_iff.mp hlast
  obtain ⟨hdraining, hsampled⟩ := Prod.mk.inj hs
  have hfree := hall ⟨[4, 3], by decide, by decide⟩ _ s hrun
  have hnone := (hfree ⟨3, .draining, hdraining, Or.inl rfl⟩).2 4 aLoad
  rw [hnone] at hsampled
  cases hsampled

end AccessSampling
