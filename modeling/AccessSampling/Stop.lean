import AccessSampling.HandlerRuns
import AccessSampling.Recording

/-!
# `stop`

`stop` blocks `SIGPROF` in the thread that calls it, and disables no event.  The events
and handlers of the other threads go on.

* `Thread.Silent` — a thread whose events and handler append nothing, and
  `silent_iff`: no other thread that is at rest appends nothing for ever.
* `frozen_after_stop` — after `stop` nothing changes the event buffers until another
  metric is added, if the other threads are silent when it is called.
* `not_frozen_after_stop` — if one of them is not, and runs no handler just then, there is
  a way for the thread to go on that changes its buffer.

`Thread.Silent` is a condition on the state in which `stop` is called, and has one case for
each way in which a thread can be quiet: it has no buffer to append to; or it runs no
handler, and either its `SIGPROF` is blocked, or nothing is pending and none of its events
has a signal to send.
-/

namespace AccessSampling

open Foundation

/-- A step of a call of `add_metric`. -/
def ProcessEvent.isAddMetric : ProcessEvent → Bool
  | .call _ _ | .register _ | .event_open _ _ | .enable _ => true
  | _ => false

/-- No sample of the event sends a signal: it is not enabled, or sends none, or its ring
has no room for a sample. -/
def PerfEvent.Mute (g : Geometry) (ev : PerfEvent) : Prop :=
  ev.enabled = true → ev.notifies = true → ∀ e : SamplingEvent, ev.produce g e.record = none

/-- No handler runs, and none will: `SIGPROF` is blocked, or none is pending and no event
sends any.  A thread without a buffer may run its handler. -/
def Thread.Silent (g : Geometry) (th : Thread) : Prop :=
  th.event_data_ = none ∨ th.handler = none ∧ (th.blocked = true ∨
    th.pending = none ∧ ∀ fd ev, th.events fd = some ev → ev.Mute g)

section Stop

variable {T : TraceEvents} {g : Geometry} {pfm : Pfm} {s s' : Process T} {e : ProcessEvent}

/-! ### One thread -/

/-- **A silent thread appends nothing, and stays silent.** -/
theorem Thread.Silent.next {x x' : Sampler T} {e : SamplerEvent} (h : x.thread.Silent g)
    (hnext : (samplerMachine g T).next x e = some x') :
    x'.heap = x.heap ∧ x'.thread.Silent g := by
  obtain ⟨hheap, hdata, -⟩ := Sampler.next_heap hnext
  rcases h with hnone | ⟨hhandler, hquiet⟩
  · rw [hnone, Heap.extend_none] at hheap
    exact ⟨hheap, Or.inl (hdata.trans hnone)⟩
  cases e with
  | sample fd e =>
      obtain ⟨th, hsample, rfl⟩ := Option.map_eq_some_iff.mp hnext
      refine ⟨rfl, Or.inr ?_⟩
      obtain ⟨ev, hev, henabled, rfl | ⟨ev', hev', -, rfl⟩⟩ := Thread.sample_cases hsample
      · exact ⟨hhandler, hquiet⟩
      rcases hquiet with hblocked | ⟨hpending, hmute⟩
      · split
        case isTrue => exact ⟨hhandler, Or.inl hblocked⟩
        case isFalse => exact ⟨hhandler, Or.inl hblocked⟩
      · -- the event sends no signals, or its ring would have had no room
        obtain ⟨hsame, -⟩ := PerfEvent.produce_flags hev'
        by_cases hon : ev.notifies = true
        · rw [hmute fd ev hev henabled hon e] at hev'
          cases hev'
        · rw [if_neg hon]
          refine ⟨hhandler, Or.inr ⟨hpending, fun y ev₁ hev₁ => ?_⟩⟩
          by_cases hy : y = fd
          · subst hy
            cases (Thread.events_modify_of_eq _ hev).symm.trans hev₁
            exact fun _ hon' => absurd (hsame ▸ hon') hon
          · exact hmute y ev₁ ((Thread.events_modify_ne _ _ _ hy).symm.trans hev₁)
  | deliver =>
      obtain ⟨th, hdeliver, rfl⟩ := Option.map_eq_some_iff.mp hnext
      obtain ⟨fd, hpending, -, hunblocked, rfl⟩ := Thread.deliver_cases hdeliver
      rcases hquiet with hblocked | ⟨hnone, -⟩
      · rw [hunblocked] at hblocked
        cases hblocked
      · rw [hpending] at hnone
        cases hnone
  | handle now =>
      obtain ⟨fd, ph, hph, -⟩ := Sampler.handle_cases hnext
      rw [hhandler] at hph
      cases hph

/-- Whether a ring has room for a record is a matter of its size. -/
theorem PerfEvent.produce_isSome_congr {ev : PerfEvent} {r r' : Record} (h : r.size = r'.size) :
    (ev.produce g r).isSome = (ev.produce g r').isSome := by
  unfold PerfEvent.produce PerfMmap.append
  cases ev.mmap with
  | none => rfl
  | some m =>
      simp only [Option.bind_some, Option.isSome_map, h]
      split
      case isTrue => rfl
      case isFalse => rfl

/-- **The silent threads are those that append nothing** however they go on, as long as no
handler runs. -/
theorem Thread.Wired.silent_iff {x : Sampler T} (h : x.thread.Wired g)
    (hhandler : x.thread.handler = none) :
    x.thread.Silent g ↔
      ∀ es x', (samplerMachine g T).exec x es = some x' → x'.heap = x.heap := by
  constructor
  · intro hsilent es x' hrun
    refine ((samplerMachine g T).exec_preserves
      (I := fun y => y.heap = x.heap ∧ y.thread.Silent g) (fun y e y' hy hnext => ?_)
      ⟨rfl, hsilent⟩ hrun).1
    obtain ⟨hheap, hstill⟩ := hy.2.next hnext
    exact ⟨hheap.trans hy.1, hstill⟩
  · intro hfrozen
    have hno : ∀ p, ¬ ∃ es x', (samplerMachine g T).exec x es = some x' ∧
        (x.heap p).length < (x'.heap p).length := by
      rintro p ⟨es, x', hrun, hlt⟩
      rw [hfrozen es x' hrun] at hlt
      exact lt_irrefl _ hlt
    cases hdata : x.thread.event_data_ with
    | none => exact Or.inl hdata
    | some p =>
        refine Or.inr ⟨hhandler, ?_⟩
        cases hblocked : x.thread.blocked with
        | true => exact Or.inl rfl
        | false =>
            refine Or.inr ?_
            cases hpending : x.thread.pending with
            | some y => exact absurd (records_pending h hdata hhandler hpending hblocked) (hno p)
            | none =>
                refine ⟨rfl, fun fd ev hev henabled hon e => ?_⟩
                obtain ⟨rb, n, hat⟩ := h.rings fd ev hev hon
                have hnone : ev.produce g (SamplingEvent.record ⟨0, 0, 1, 0⟩) = none := by
                  by_contra hsome
                  obtain ⟨ev', hroom⟩ := Option.ne_none_iff_exists'.mp hsome
                  exact hno p (records_sample hat henabled hon hroom (by decide) hdata hhandler
                    hpending hblocked)
                have hsize : e.record.size = (SamplingEvent.record ⟨0, 0, 1, 0⟩).size := by
                  rw [SamplingEvent.size_record, SamplingEvent.size_record]
                refine Option.not_isSome_iff_eq_none.mp ?_
                rw [PerfEvent.produce_isSome_congr hsize, hnone]
                exact Bool.false_ne_true

/-! ### The process -/

/-- No thread is going to append anything. -/
def Process.Silent (g : Geometry) (s : Process T) : Prop :=
  ∀ t k, s.threads t = some k → k.thread.Silent g

/-- **The buffers of silent threads are frozen**, as long as no metric is added. -/
theorem Process.Silent.step (h : s.Silent g) (he : e.isAddMetric = false)
    (hstep : Process.Step g pfm s e s') : s'.plugin = s.plugin ∧ s'.Silent g := by
  cases hstep with
  | start blocked => exact ⟨rfl, Process.forall_set h (Or.inl rfl)⟩
  | exit => exact ⟨rfl, Process.forall_erase h⟩
  | @stopped t k hk hhandler =>
      refine ⟨rfl, Process.forall_set h ?_⟩
      exact Or.inr ⟨hhandler, Or.inl rfl⟩
  | @sampled t k e x hk hnext =>
      obtain ⟨hheap, hsilent⟩ := Thread.Silent.next (h t k hk) hnext
      refine ⟨?_, Process.forall_set h hsilent⟩
      show { s.plugin with heap := x.heap } = s.plugin
      rw [hheap]
  | refused => cases he
  | called => cases he
  | known => cases he
  | added => cases he
  | failed => cases he
  | opened => cases he
  | enabled => cases he
  | returned => cases he

/-- Nobody appends anything after silence has come over the process. -/
theorem Process.Silent.exec (h : s.Silent g) {fs : List ProcessEvent}
    (hfs : ∀ e ∈ fs, e.isAddMetric = false)
    (hrun : (processMachine g pfm T).exec s fs = some s') : s'.plugin = s.plugin := by
  refine ((processMachine g pfm T).exec_invariant (Q := fun _ e => e.isAddMetric = false)
    (I := fun x => x.plugin = s.plugin ∧ x.Silent g) (fun x e x' hx he hnext => ?_)
    ⟨rfl, h⟩ (Machine.along_of_forall_mem _ fun e he _ => hfs e he) hrun).1
  obtain ⟨hsame, hsilent⟩ := hx.2.step he (Process.step_of_next hnext)
  exact ⟨hsame.trans hx.1, hsilent⟩

/-- The thread that calls `stop` is silent then, and the others are what they were. -/
theorem Process.silent_after_stop {t : ThreadId}
    (hstop : (processMachine g pfm T).next s (.stop t) = some s')
    (hothers : ∀ u k, u ≠ t → s.threads u = some k → k.thread.Silent g) : s'.Silent g := by
  cases Process.step_of_next hstop with
  | @stopped _ k hk hhandler =>
      intro u j hu
      by_cases hut : u = t
      · subst hut
        cases (Process.set_threads_self s u _).symm.trans hu
        exact Or.inr ⟨hhandler, Or.inl rfl⟩
      · exact hothers u j hut ((Process.set_threads_ne s _ hut).symm.trans hu)

/-- **Buffers are frozen after `stop`**, if the other threads are silent when it is called:
whatever the threads do then, until a metric is added, the event buffers stay as they
are, and so do the containers that lead to them. -/
theorem frozen_after_stop {t : ThreadId} {s₁ s₂ : Process T} {fs : List ProcessEvent}
    (hothers : ∀ u k, u ≠ t → s.threads u = some k → k.thread.Silent g)
    (hstop : (processMachine g pfm T).next s (.stop t) = some s₁)
    (hfs : ∀ e ∈ fs, e.isAddMetric = false)
    (hrun : (processMachine g pfm T).exec s₁ fs = some s₂) : s₂.plugin = s₁.plugin :=
  (Process.silent_after_stop hstop hothers).exec hfs hrun

/-! ### The condition is exact -/

/-- A thread is wired, and its descriptors have been opened. -/
structure Process.WiredTask (g : Geometry) (s : Process T) (k : Task) : Prop where
  wired : k.thread.Wired g
  uses : ∀ fd, k.thread.Uses fd → s.opened fd ≠ none

namespace Process.WiredTask

variable {k k' : Task}

theorem of_extends (h : s.WiredTask g k) (hext : s.Extends s') : s'.WiredTask g k where
  wired := h.wired
  uses fd hfd := by
    obtain ⟨r, hr⟩ := Option.ne_none_iff_exists'.mp (h.uses fd hfd)
    rw [hext.opened fd r hr]
    exact Option.some_ne_none r

/-- A change of an event that spares its ring and its configuration. -/
theorem modify (h : s.WiredTask g k) (fd : Fd) {f : PerfEvent → PerfEvent} {call : Option Frame}
    (hmmap : ∀ ev, (f ev).mmap = ev.mmap) (haccepted : ∀ ev, (f ev).accepted = ev.accepted)
    (hnotifies : ∀ ev, (f ev).notifies = ev.notifies) :
    s.WiredTask g { k with thread := k.thread.modify fd f, call := call } where
  wired := h.wired.modify fd hmmap haccepted hnotifies h.wired.handler
  uses x hx := h.uses x (Thread.Uses.of_modify hx)

/-- `event_open`, whether it fails or not. -/
theorem event_open (h : s.WiredTask g k) {attr : PerfEventAttribute} {o : OpenOutcome}
    {r : Registration} (hfresh : s.opened o.fd = none) (hext : s.Extends s')
    (hopened : s'.opened = s.openedBy o r)
    (hthread : k'.thread = (k.thread.event_open g attr o).2) : s'.WiredTask g k' := by
  have hunused : ¬ k.thread.Uses o.fd := fun huses => h.uses o.fd huses hfresh
  have hring : o.fd ∉ k.thread.ring_buffers_ := fun hmem => hunused (Or.inl hmem)
  have hevent : k.thread.events o.fd = none := by
    by_contra hsome
    exact hunused (Or.inr (Or.inl hsome))
  refine ⟨hthread ▸ h.wired.event_open hring hevent, fun fd hfd => ?_⟩
  rw [hthread] at hfd
  rcases Thread.uses_event_open hring hfd with hold | ⟨hnonneg, rfl⟩
  · obtain ⟨r', hr'⟩ := Option.ne_none_iff_exists'.mp (h.uses fd hold)
    rw [hext.opened fd r' hr']
    exact Option.some_ne_none r'
  · rw [hopened, Process.openedBy, if_pos hnonneg, Function.update_self]
    exact Option.some_ne_none r

theorem of_same (h : s.WiredTask g k) (hrings : k'.thread.ring_buffers_ = k.thread.ring_buffers_)
    (hevents : k'.thread.events = k.thread.events)
    (hpending : k'.thread.pending = k.thread.pending)
    (hhandler : k'.thread.handler = k.thread.handler) : s.WiredTask g k' where
  wired := h.wired.congr hrings hevents (hpending ▸ h.wired.pending) (hhandler ▸ h.wired.handler)
  uses fd hfd := by
    refine h.uses fd ?_
    rwa [Thread.Uses, hrings, hevents, hpending, hhandler] at hfd

end Process.WiredTask

theorem Process.WiredTask.step (h : ∀ t k, s.threads t = some k → s.WiredTask g k)
    (hstep : Process.Step g pfm s e s') : ∀ t k, s'.threads t = some k → s'.WiredTask g k := by
  have hext := hstep.extends
  have hother : ∀ t k, s.threads t = some k → s'.WiredTask g k :=
    fun t k hk => (h t k hk).of_extends hext
  cases hstep with
  | start blocked =>
      exact Process.forall_set hother
        ⟨.new blocked, fun fd huses => absurd huses (Thread.not_uses_new blocked)⟩
  | exit => exact Process.forall_erase hother
  | refused => exact hother
  | @called t k _ _ _ hk =>
      exact Process.forall_set hother ((hother t k hk).of_same rfl rfl rfl rfl)
  | @known t k _ _ _ hk =>
      exact Process.forall_set hother ((hother t k hk).of_same rfl rfl rfl rfl)
  | @added t k _ _ _ hk =>
      exact Process.forall_set hother ((hother t k hk).of_same rfl rfl rfl rfl)
  | @failed t k r attr o e hk hhandler hcall hfresh =>
      exact Process.forall_set hother ((h t k hk).event_open hfresh hext rfl rfl)
  | @opened t k r attr o hk hhandler hcall hfresh =>
      exact Process.forall_set hother ((h t k hk).event_open hfresh hext rfl rfl)
  | @enabled t k r fd x fds hk =>
      exact Process.forall_set hother ((hother t k hk).modify x
        (f := fun ev => { ev with enabled := true }) (fun _ => rfl) (fun _ => rfl) fun _ => rfl)
  | @returned t k _ _ hk =>
      exact Process.forall_set hother ((hother t k hk).of_same rfl rfl rfl rfl)
  | @stopped t k hk =>
      exact Process.forall_set hother ((hother t k hk).of_same rfl rfl rfl rfl)
  | @sampled t k e x hk hnext =>
      have hok := h t k hk
      refine Process.forall_set hother ⟨?_, fun fd hfd => ?_⟩
      · exact Thread.Wired.next (s := ⟨k.thread, s.plugin.heap⟩) hok.wired hnext
      · exact hok.uses fd (Sampler.uses_of_next hnext hfd)

/-- **Every thread of a process is wired.** -/
theorem Process.WiredTask.of_exec {es : List ProcessEvent}
    (hrun : (processMachine g pfm T).exec (.init T) es = some s) :
    ∀ t k, s.threads t = some k → s.WiredTask g k :=
  (processMachine g pfm T).exec_preserves
    (I := fun s => ∀ t k, s.threads t = some k → s.WiredTask g k)
    (fun _ _ _ h hnext => Process.WiredTask.step h (Process.step_of_next hnext))
    (fun _ _ hk => by cases hk) hrun

/-- **A thread that is not silent changes its buffer after `stop`**, if it goes on the
right way. -/
theorem not_frozen_after_stop {es : List ProcessEvent} {t u : ThreadId} {s₁ : Process T}
    {k : Task} (hrun : (processMachine g pfm T).exec (.init T) es = some s)
    (hstop : (processMachine g pfm T).next s (.stop t) = some s₁) (hu : u ≠ t)
    (hk : s.threads u = some k) (hhandler : k.thread.handler = none)
    (hloud : ¬ k.thread.Silent g) :
    ∃ fs s₂, (∀ e ∈ fs, e.isAddMetric = false) ∧
      (processMachine g pfm T).exec s₁ fs = some s₂ ∧ s₂.plugin.heap ≠ s₁.plugin.heap := by
  have hk₁ : s₁.threads u = some k :=
    ((Process.step_of_next hstop).threads_ne hu).trans hk
  have hwired := (Process.WiredTask.of_exec hrun u k hk).wired
  rw [hwired.silent_iff (x := ⟨k.thread, s₁.plugin.heap⟩) hhandler] at hloud
  simp only [not_forall, exists_prop] at hloud
  obtain ⟨fs, x, hfs, hchanged⟩ := hloud
  obtain ⟨s₂, hrun₂, hplugin⟩ : ∃ s₂,
      (processMachine g pfm T).exec s₁ (fs.map (.sampling u)) = some s₂ ∧
        s₂.plugin = { s₁.plugin with heap := x.heap } :=
    Process.exec_sampling hk₁ hfs
  refine ⟨fs.map (.sampling u), s₂, fun e he => ?_, hrun₂, ?_⟩
  · obtain ⟨e', -, rfl⟩ := List.mem_map.mp he
    rfl
  · rw [hplugin]
    exact hchanged

end Stop

/-- A thread adds a metric and takes a sample; another one has none. -/
def oneMetric : List ProcessEvent :=
  [.start ⟨1⟩ false, .start ⟨2⟩ false] ++ addSteps ⟨1⟩ "Load@1000".toList (.success 3 fun _ => 0) 1
    ++ sampleSteps ⟨1⟩ 3 aLoad

set_option maxRecDepth 10000 in
/-- The thread calls `stop`, and takes another sample. -/
theorem frozen_after_stop_one_metric :
    ∃ s₁ s₂ : Process .perf,
      (processMachine .x86 .intel .perf).exec (.init .perf) (oneMetric ++ [.stop ⟨1⟩]) = some s₁ ∧
      (processMachine .x86 .intel .perf).exec s₁
        [.sampling ⟨1⟩ (.sample 3 aLoad), .start ⟨3⟩ false, .exit ⟨2⟩] = some s₂ ∧
      (s₁.plugin.heap 0).length = 1 ∧ s₂.plugin = s₁.plugin := by
  obtain ⟨s₂, hrun₂⟩ : ∃ s₂, (processMachine .x86 .intel .perf).exec (.init .perf)
      ((oneMetric ++ [.stop ⟨1⟩]) ++
        [.sampling ⟨1⟩ (.sample 3 aLoad), .start ⟨3⟩ false, .exit ⟨2⟩]) = some s₂ :=
    Option.isSome_iff_exists.mp (by decide +kernel)
  obtain ⟨s₁, hrun₁, hrun⟩ := (Machine.exec_append_eq_some _).mp hrun₂
  obtain ⟨s, hrun₀, hstop⟩ := (Machine.exec_concat_eq_some _).mp hrun₁
  have hlength : ((processMachine .x86 .intel .perf).exec (.init .perf)
      (oneMetric ++ [.stop ⟨1⟩])).map (fun s => (s.plugin.heap 0).length) = some 1 := by
    decide +kernel
  have hsecond : ((processMachine .x86 .intel .perf).exec (.init .perf) oneMetric).map
      (fun s => (s.threads ⟨2⟩).map fun k => k.thread.event_data_) = some (some none) := by
    decide +kernel
  rw [hrun₁, Option.map_some] at hlength
  rw [hrun₀, Option.map_some] at hsecond
  refine ⟨s₁, s₂, hrun₁, hrun, Option.some.inj hlength, ?_⟩
  refine frozen_after_stop (fun u k hu hk => Or.inl ?_) hstop (by decide) hrun
  by_cases hu₂ : u = ⟨2⟩
  · subst hu₂
    rw [hk] at hsecond
    exact Option.some.inj (Option.some.inj hsecond)
  · have htids : ∀ e ∈ oneMetric, e.tid ∈ [(⟨1⟩ : ThreadId), ⟨2⟩] := by decide
    have hnone : s.threads u = none := Process.threads_eq_none htids (by simp [hu, hu₂]) hrun₀
    rw [hnone] at hk
    cases hk

/-- Two threads add a metric each. -/
def twoMetrics : List ProcessEvent :=
  [.start ⟨1⟩ false, .start ⟨2⟩ false] ++ addSteps ⟨1⟩ "Load@1000".toList (.success 3 fun _ => 0) 1
    ++ addSteps ⟨2⟩ "Load@1000".toList (.success 4 fun _ => 0) 1

set_option maxRecDepth 10000 in
/-- **The other threads go on after `stop`.**  One of two threads calls it while no
handler runs, and the other one takes a sample and records it. -/
theorem recorded_after_stop :
    ¬ ∀ (es fs : List ProcessEvent) (t : ThreadId) (s s₁ s₂ : Process .perf),
      (processMachine .x86 .intel .perf).exec (.init .perf) es = some s →
      (processMachine .x86 .intel .perf).next s (.stop t) = some s₁ →
      (∀ u k, s₁.threads u = some k → k.thread.handler = none) →
      (∀ e ∈ fs, e.isAddMetric = false) →
      (processMachine .x86 .intel .perf).exec s₁ fs = some s₂ →
      s₂.plugin.heap = s₁.plugin.heap := by
  intro hall
  have hbefore : ((processMachine .x86 .intel .perf).exec (.init .perf)
      (twoMetrics ++ [.stop ⟨1⟩])).map (fun s => ((s.plugin.heap 1).length,
        (s.threads ⟨1⟩).map fun k => k.thread.handler.isNone,
        (s.threads ⟨2⟩).map fun k => k.thread.handler.isNone))
      = some (0, some true, some true) := by
    decide +kernel
  have hafter : ((processMachine .x86 .intel .perf).exec (.init .perf)
      ((twoMetrics ++ [.stop ⟨1⟩]) ++ sampleSteps ⟨2⟩ 4 aLoad)).map
        (fun s => (s.plugin.heap 1).length) = some 1 := by
    decide +kernel
  obtain ⟨s₂, hrun₂, hs₂⟩ := Option.map_eq_some_iff.mp hafter
  obtain ⟨s₁, hrun₁, hrun⟩ := (Machine.exec_append_eq_some _).mp hrun₂
  obtain ⟨s, hrun₀, hstop⟩ := (Machine.exec_concat_eq_some _).mp hrun₁
  rw [hrun₁, Option.map_some] at hbefore
  simp only [Option.some.injEq, Prod.mk.injEq] at hbefore
  obtain ⟨hs₁, hfirst, hsecond⟩ := hbefore
  have hhandlers : ∀ u k, s₁.threads u = some k → k.thread.handler = none := by
    intro u k hk
    by_cases hu₁ : u = ⟨1⟩
    · subst hu₁
      rw [hk] at hfirst
      exact Option.isNone_iff_eq_none.mp (Option.some.inj hfirst)
    by_cases hu₂ : u = ⟨2⟩
    · subst hu₂
      rw [hk] at hsecond
      exact Option.isNone_iff_eq_none.mp (Option.some.inj hsecond)
    · have htids : ∀ e ∈ twoMetrics ++ [.stop ⟨1⟩], e.tid ∈ [(⟨1⟩ : ThreadId), ⟨2⟩] := by decide
      have hnone : s₁.threads u = none := Process.threads_eq_none htids (by simp [hu₁, hu₂]) hrun₁
      rw [hnone] at hk
      cases hk
  have hsame := hall _ _ ⟨1⟩ s s₁ s₂ hrun₀ hstop hhandlers (by decide) hrun
  rw [hsame, hs₁] at hs₂
  cases hs₂

end AccessSampling
