import AccessSampling.Provenance

/-!
# Every handler comes to its end

A handler runs on its thread while the thread's other events take samples, and while the other
threads do what they like.  It reads and writes only what it may, it waits for nothing, and it
returns after a number of its own steps that only the size of a ring bounds.

* `Thread.Quiet` — the invariant: the event whose ring is drained is off, so nothing is added
  to what the handler has left to read.
* `Thread.Budget` — how many steps a handler has left.
* `handler_ends` — the result.

Its own event is disabled before the first `read`, which is why the number of steps is
bounded by what is in the ring then, and why samples of the thread's other events make no
difference.  A handler that found its event enabled could be kept going for ever.

**The rings have samples only**, as in all runs of `processMachine`.  For other records this is
false: a record that overwrites `PAGE_SIZE` (`overflow_at_end`) may make `read` leave the
mapping, or return the same record without end.
-/

namespace AccessSampling

open Foundation

variable {T : TraceEvents} {g : Geometry} {pfm : Pfm} {s s' : Process T} {e : ProcessEvent}

/-- The event of a handler that drains is off, and in the end its ring has been read. -/
structure Thread.Quiet (g : Geometry) (th : Thread) : Prop where
  off : ∀ fd ph, th.handler = some (fd, ph) → ph = .draining ∨ ph = .drained →
    ∀ ev, th.events fd = some ev → ev.enabled = false
  read : ∀ fd, th.handler = some (fd, .drained) →
    ∃ rb ev, th.At g fd rb ev ev.accepted.length

/-- How many steps a handler takes at most before its last one. -/
def Thread.Budget (g : Geometry) (th : Thread) (n : ℕ) : Prop :=
  ∃ fd ph, th.handler = some (fd, ph) ∧ match ph with
    | .entered => g.capacity + 2 ≤ n
    | .draining => ∃ rb ev m, th.At g fd rb ev m ∧ ev.accepted.length - m + 2 ≤ n
    | .drained => 1 ≤ n
    | .enabled => True

def SamplerEvent.isHandle : SamplerEvent → Bool
  | .handle _ => true
  | _ => false

section Thread

variable {th : Thread} {x x' : Sampler T} {f : SamplerEvent} {n : ℕ}

theorem Thread.Quiet.of_handler_none (h : th.handler = none) : th.Quiet g where
  off fd ph hph := by
    rw [h] at hph
    cases hph
  read fd hph := by
    rw [h] at hph
    cases hph

/-- **A sample is one of another event**, once the ring is being drained. -/
theorem Thread.Quiet.sample_ne (h : th.Quiet g) {fd y : Fd} {ph : Phase} {ev : PerfEvent}
    (hph : th.handler = some (fd, ph)) (hdraining : ph = .draining ∨ ph = .drained)
    (hev : th.events y = some ev) (hon : ev.enabled = true) : fd ≠ y := by
  rintro rfl
  rw [h.off fd ph hph hdraining ev hev] at hon
  cases hon

/-- A sample of another event leaves the ring of the handler alone. -/
theorem Thread.at_of_sample {th' : Thread} {fd y : Fd} {rb : PerfRingBuffer} {ev ev' : PerfEvent}
    {m : ℕ} (hat : th.At g fd rb ev m) (hne : fd ≠ y)
    (hrings : th'.ring_buffers_ = th.ring_buffers_)
    (hevents : th'.events = (th.modify y fun _ => ev').events) : th'.At g fd rb ev m := by
  refine ⟨hrings ▸ hat.ring, ?_, hat.reading⟩
  rw [hevents, Thread.events_modify_ne _ _ _ hne]
  exact hat.event

/-- What a sample leaves: the thread, but for one event and its signal. -/
theorem Sampler.sample_effect {y : Fd} {e : SamplingEvent}
    (hnext : (samplerMachine g T).next x (.sample y e) = some x') :
    x'.thread.handler = x.thread.handler ∧ (x'.thread = x.thread ∨
      ∃ ev ev', x.thread.events y = some ev ∧ ev.enabled = true ∧
        x'.thread.ring_buffers_ = x.thread.ring_buffers_ ∧
        x'.thread.events = (x.thread.modify y fun _ => ev').events) := by
  obtain ⟨th, hsample, rfl⟩ := Option.map_eq_some_iff.mp hnext
  obtain ⟨ev, hev, hon, rfl | ⟨ev', -, -, rfl⟩⟩ := Thread.sample_cases hsample
  · exact ⟨rfl, Or.inl rfl⟩
  · split
    case isTrue => exact ⟨rfl, Or.inr ⟨ev, ev', hev, hon, rfl, rfl⟩⟩
    case isFalse => exact ⟨rfl, Or.inr ⟨ev, ev', hev, hon, rfl, rfl⟩⟩

/-- **The event stays off while its ring is drained.** -/
theorem Thread.Quiet.next (h : x.thread.Quiet g) (hwired : x.thread.Wired g)
    (hnext : (samplerMachine g T).next x f = some x') : x'.thread.Quiet g := by
  cases f with
  | sample y e =>
      obtain ⟨hhandler, hsame | ⟨ev, ev', hev, hon, hrings, hevents⟩⟩ := Sampler.sample_effect hnext
      · rw [hsame]
        exact h
      · refine ⟨fun fd ph hph hdraining ev₁ hev₁ => ?_, fun fd hph => ?_⟩
        · have hne := h.sample_ne (hhandler ▸ hph) hdraining hev hon
          rw [hevents, Thread.events_modify_ne _ _ _ hne] at hev₁
          exact h.off fd ph (hhandler ▸ hph) hdraining ev₁ hev₁
        · have hne := h.sample_ne (hhandler ▸ hph) (Or.inr rfl) hev hon
          obtain ⟨rb, ev₁, hat⟩ := h.read fd (hhandler ▸ hph)
          exact ⟨rb, ev₁, Thread.at_of_sample hat hne hrings hevents⟩
  | deliver =>
      obtain ⟨th, hdeliver, rfl⟩ := Option.map_eq_some_iff.mp hnext
      obtain ⟨fd, -, -, -, rfl⟩ := Thread.deliver_cases hdeliver
      refine ⟨fun y ph hph hdraining => ?_, fun y hph => by cases hph⟩
      cases hph
      rcases hdraining with hph | hph
      · cases hph
      · cases hph
  | handle now =>
      obtain ⟨fd, ph, hph, hcase⟩ := Sampler.handle_cases hnext
      obtain ⟨ev, hev, hon⟩ := hwired.handler fd ph hph
      obtain ⟨rb, n, hat⟩ := hwired.rings fd ev hev hon
      cases ph with
      | entered =>
          subst hcase
          have hmem : fd ∈ x.thread.ring_buffers_ :=
            AList.lookup_isSome.mp (Option.isSome_of_eq_some hat.ring)
          refine ⟨fun y ph' hph' _ ev₁ hev₁ => ?_, fun y hph' => ?_⟩
          · cases hph'
            have hoff := Thread.events_modify_of_eq (fun ev => { ev with enabled := false }) hev
            cases hoff.symm.trans hev₁
            rfl
          · rw [if_pos hmem] at hph'
            cases hph'
      | draining =>
          obtain ⟨rb', m', n', hat', -, hdrains⟩ := Sampler.handle_draining hat hph hnext
          have hoff : ∀ ev₁, x'.thread.events fd = some ev₁ → ev₁.enabled = false := by
            intro ev₁ hev₁
            cases hat'.event.symm.trans hev₁
            exact h.off fd _ hph (Or.inl rfl) ev hev
          rcases hdrains with ⟨-, -, hph', -⟩ | ⟨rfl, hall, hph', -⟩
          · refine ⟨fun y ph hy _ => ?_, fun y hy => ?_⟩
            · cases hph'.symm.trans hy
              exact hoff
            · cases hph'.symm.trans hy
          · refine ⟨fun y ph hy _ => ?_, fun y hy => ?_⟩
            · cases hph'.symm.trans hy
              exact hoff
            · cases hph'.symm.trans hy
              subst hall
              exact ⟨rb', _, hat'⟩
      | drained =>
          subst hcase
          refine ⟨fun y ph hy hdraining => ?_, fun y hy => by cases hy⟩
          cases hy
          rcases hdraining with hph | hph
          · cases hph
          · cases hph
      | enabled =>
          subst hcase
          exact .of_handler_none rfl

/-- **A step of the handler costs one, and the steps of the kernel cost nothing**, as long as
the handler runs. -/
theorem Thread.Budget.next (h : x.thread.Budget g n) (hquiet : x.thread.Quiet g)
    (hwired : x.thread.Wired g) (hnext : (samplerMachine g T).next x f = some x')
    (hruns : x'.thread.handler ≠ none) :
    ∃ n', x'.thread.Budget g n' ∧ n' + (if f.isHandle then 1 else 0) ≤ n := by
  obtain ⟨fd, ph, hph, hbudget⟩ := h
  cases f with
  | sample y e =>
      obtain ⟨hhandler, hsame⟩ := Sampler.sample_effect hnext
      refine ⟨n, ⟨fd, ph, hhandler.trans hph, ?_⟩, le_rfl⟩
      cases ph with
      | entered => exact hbudget
      | draining =>
          obtain ⟨rb, ev, m, hat, hle⟩ := hbudget
          rcases hsame with hsame | ⟨ev₁, ev', hev₁, hon, hrings, hevents⟩
          · exact ⟨rb, ev, m, hsame ▸ hat, hle⟩
          · have hne := hquiet.sample_ne hph (Or.inl rfl) hev₁ hon
            exact ⟨rb, ev, m, Thread.at_of_sample hat hne hrings hevents, hle⟩
      | drained => exact hbudget
      | enabled => trivial
  | deliver =>
      -- `SIGPROF` is blocked while the handler runs
      obtain ⟨th, hdeliver, -⟩ := Option.map_eq_some_iff.mp hnext
      obtain ⟨y, -, hnone, -⟩ := Thread.deliver_cases hdeliver
      rw [hph] at hnone
      cases hnone
  | handle now =>
      obtain ⟨y, ph', hph', hcase⟩ := Sampler.handle_cases hnext
      cases hph.symm.trans hph'
      obtain ⟨ev, hev, hon⟩ := hwired.handler fd ph hph
      obtain ⟨rb, m, hat⟩ := hwired.rings fd ev hev hon
      cases ph with
      | entered =>
          subst hcase
          have hmem : fd ∈ x.thread.ring_buffers_ :=
            AList.lookup_isSome.mp (Option.isSome_of_eq_some hat.ring)
          have hlt := hat.reading.unread_lt
          have hoff := hat.modify (fun ev => { ev with enabled := false })
            (hat.reading.congr rfl rfl)
          refine ⟨g.capacity + 1, ⟨fd, .draining, ?_, rb, _, m,
            ⟨hoff.ring, hoff.event, hoff.reading⟩, ?_⟩, ?_⟩
          · exact congrArg (fun ph => some (fd, ph)) (if_pos hmem)
          · show ev.accepted.length - m + 2 ≤ g.capacity + 1
            omega
          · exact hbudget
      | draining =>
          obtain ⟨rb₁, ev₁, m₁, hat₁, hle⟩ := hbudget
          obtain ⟨rb', m', n', hat', -, hdrains⟩ := Sampler.handle_draining hat₁ hph hnext
          rcases hdrains with ⟨hlt, rfl, hrun, -⟩ | ⟨-, -, hrun, -⟩
          · refine ⟨n - 1, ⟨fd, .draining, hrun, rb', _, _, hat', ?_⟩, ?_⟩
            · show ev₁.accepted.length - (m₁ + 1) + 2 ≤ n - 1
              omega
            · show n - 1 + 1 ≤ n
              omega
          · refine ⟨1, ⟨fd, .drained, hrun, le_rfl⟩, ?_⟩
            show 1 + 1 ≤ n
            omega
      | drained =>
          subst hcase
          exact ⟨0, ⟨fd, .enabled, rfl, trivial⟩, hbudget⟩
      | enabled =>
          subst hcase
          exact absurd rfl hruns

/-- **A handler can always go on**, and needs no memory but the ring's and the reader's. -/
theorem Sampler.handle_isSome (hwired : x.thread.Wired g) (hruns : x.thread.handler ≠ none)
    (now : UInt64) : ∃ x', (samplerMachine g T).next x (.handle now) = some x' := by
  obtain ⟨⟨fd, ph⟩, hph⟩ := Option.ne_none_iff_exists'.mp hruns
  show ∃ x', x.handle g now = some x'
  cases ph with
  | entered => exact ⟨_, by simp only [Sampler.handle, hph]; rfl⟩
  | draining =>
      obtain ⟨ev, hev, hon⟩ := hwired.handler fd _ hph
      obtain ⟨rb, n, hat⟩ := hwired.rings fd ev hev hon
      rcases Nat.eq_or_lt_of_le hat.reading.le with hall | hlt
      · obtain ⟨th, m', hstep, -⟩ := Sampler.handle_caught now hat hph hall
        exact ⟨_, hstep⟩
      · obtain ⟨th, rb', m', hstep, -⟩ := Sampler.handle_behind now hat hph hlt
        exact ⟨_, hstep⟩
  | drained => exact ⟨_, by simp only [Sampler.handle, hph]; rfl⟩
  | enabled => exact ⟨_, by simp only [Sampler.handle, hph]; rfl⟩

end Thread

/-! ### In a process -/

/-- The thread runs its handler. -/
def Process.Handling (t : ThreadId) (s : Process T) : Prop :=
  ∃ k, s.threads t = some k ∧ k.thread.handler ≠ none

/-- A step that the thread's handler takes. -/
def ProcessEvent.isHandleOf (t : ThreadId) : ProcessEvent → Bool
  | .sampling u f => decide (u = t) && f.isHandle
  | _ => false

theorem Process.Quiet.step (h : ∀ t k, s.threads t = some k → k.thread.Quiet g)
    (howned : s.Owned) (hwired : ∀ t k, s.threads t = some k → s.WiredTask g k)
    (hstep : Process.Step g pfm s e s') : ∀ t k, s'.threads t = some k → k.thread.Quiet g := by
  intro t k' hk'
  have hcame := hstep.came t k' hk'
  generalize k'.thread = th at hcame ⊢
  obtain ⟨-, blocked, rfl⟩ | ⟨k, hk, hmoves⟩ := hcame
  · exact .of_handler_none rfl
  cases hmoves with
  | stays => exact h t k hk
  | buffer _ hhandler => exact .of_handler_none hhandler
  | event_open _ hhandler _ hfresh =>
      refine .of_handler_none ?_
      rw [Thread.event_open_thread fun hmem => howned.not_uses hk hfresh (Or.inl hmem)]
      exact hhandler
  | enable_fd _ hhandler => exact .of_handler_none hhandler
  | disable _ hhandler => exact .of_handler_none hhandler
  | sampled _ hnext =>
      exact Thread.Quiet.next (x := ⟨k.thread, s.plugin.heap⟩) (h t k hk) (hwired t k hk).wired
        hnext

theorem Process.Quiet.of_exec {es : List ProcessEvent}
    (hrun : (processMachine g pfm T).exec (.init T) es = some s) :
    ∀ t k, s.threads t = some k → k.thread.Quiet g :=
  ((processMachine g pfm T).exec_past
    (I := fun _ s => ∀ t k, s.threads t = some k → k.thread.Quiet g) (fun _ _ hk => by cases hk)
    (fun _ _ _ _ hrun h hnext => Process.Quiet.step h (.of_exec hrun)
      (Process.WiredTask.of_exec hrun) (Process.step_of_next hnext)) hrun)

/-- What the steps of a process take from the budget of one thread's handler. -/
theorem Process.budget_step {es : List ProcessEvent} {t : ThreadId} {k : Task} {n : ℕ}
    (hrun : (processMachine g pfm T).exec (.init T) es = some s) (hk : s.threads t = some k)
    (hbudget : k.thread.Budget g n) (hruns : s'.Handling t)
    (hnext : (processMachine g pfm T).next s e = some s') :
    ∃ n' k', s'.threads t = some k' ∧ k'.thread.Budget g n' ∧
      n' + (if e.isHandleOf t then 1 else 0) ≤ n := by
  obtain ⟨k', hk', hhandler'⟩ := hruns
  have hsome : k.thread.handler ≠ none := by
    obtain ⟨fd, ph, hph, -⟩ := hbudget
    rw [hph]
    exact Option.some_ne_none _
  have hcost : (∀ f, e ≠ .sampling t f) → e.isHandleOf t = false := by
    intro hother
    cases e with
    | sampling u f =>
        have hut : u ≠ t := fun heq => hother f (by rw [heq])
        simp [ProcessEvent.isHandleOf, hut]
    | _ => rfl
  have hcame := (Process.step_of_next hnext).came t k' hk'
  generalize hth : k'.thread = th at hcame
  obtain ⟨-, blocked, rfl⟩ | ⟨k₀, hk₀, hmoves⟩ := hcame
  · exact absurd (congrArg Thread.handler hth) hhandler'
  cases hk.symm.trans hk₀
  cases hmoves with
  | stays hother =>
      refine ⟨n, k', hk', hth ▸ hbudget, ?_⟩
      rw [hcost hother]
      exact le_rfl
  | buffer _ hnone => exact absurd hnone hsome
  | event_open _ hnone => exact absurd hnone hsome
  | enable_fd _ hnone => exact absurd hnone hsome
  | disable _ hnone => exact absurd hnone hsome
  | @sampled f x he hnext' =>
      subst he
      obtain ⟨n', hbudget', hle⟩ := Thread.Budget.next (x := ⟨k.thread, s.plugin.heap⟩) hbudget
        (Process.Quiet.of_exec hrun t k hk) (Process.WiredTask.of_exec hrun t k hk).wired hnext'
        (hth ▸ hhandler')
      refine ⟨n', k', hk', hth ▸ hbudget', ?_⟩
      rw [show (ProcessEvent.sampling t f).isHandleOf t = f.isHandle by
        simp [ProcessEvent.isHandleOf]]
      exact hle

/-- **Every handler comes to its end.**  In any run in which the kernel writes nothing but
samples into the rings, when a thread is in its handler,

* the handler can take its next step, at any time;
* when it is about to switch its event on again, it has read all that the kernel has accepted
  of the event;
* however the run goes on, it does not take more steps than the ring has bytes, and two more,
  before its last one. -/
theorem handler_ends {es : List ProcessEvent}
    (hrun : (processMachine g pfm T).exec (.init T) es = some s) {t : ThreadId} {k : Task}
    {fd : Fd} {ph : Phase} (hk : s.threads t = some k) (hph : k.thread.handler = some (fd, ph)) :
    (∀ now, ∃ s', (processMachine g pfm T).next s (.sampling t (.handle now)) = some s') ∧
    (ph = .drained → ∃ rb ev, k.thread.At g fd rb ev ev.accepted.length) ∧
    ∀ fs s', (processMachine g pfm T).exec s fs = some s' →
      (processMachine g pfm T).Through (Process.Handling t) s fs →
      fs.countP (ProcessEvent.isHandleOf t) ≤ g.capacity + 2 := by
  have hwired := (Process.WiredTask.of_exec hrun t k hk).wired
  have hquiet := Process.Quiet.of_exec hrun t k hk
  have hruns : k.thread.handler ≠ none := by
    rw [hph]
    exact Option.some_ne_none _
  refine ⟨fun now => ?_, fun hdrained => ?_, fun fs s' hlater hthrough => ?_⟩
  · obtain ⟨x, hx⟩ :=
      Sampler.handle_isSome (x := ⟨k.thread, s.plugin.heap⟩) (T := T) hwired hruns now
    apply Option.isSome_iff_exists.mp
    simp only [processMachine, Process.sampling, hk, Option.bind_some, hx, Option.map_some]
    rfl
  · subst hdrained
    exact hquiet.read fd hph
  · have hbudget : k.thread.Budget g (g.capacity + 2) := by
      refine ⟨fd, ph, hph, ?_⟩
      cases ph with
      | entered => exact le_rfl
      | draining =>
          obtain ⟨ev, hev, hon⟩ := hwired.handler fd _ hph
          obtain ⟨rb, m, hat⟩ := hwired.rings fd ev hev hon
          have hlt := hat.reading.unread_lt
          refine ⟨rb, ev, m, hat, ?_⟩
          omega
      | drained => exact Nat.succ_le_of_lt (by omega)
      | enabled => trivial
    -- the budget of every state of a run that this one begins
    obtain ⟨n', -, hle⟩ := (processMachine g pfm T).countP_add_le
      (R := fun s n => (∃ es, (processMachine g pfm T).exec (.init T) es = some s) ∧
        ∃ k, s.threads t = some k ∧ k.thread.Budget g n)
      (P := Process.Handling t)
      (fun s e s' n _ hR hP' hnext => by
        obtain ⟨⟨es, hrun⟩, k, hk, hbudget⟩ := hR
        obtain ⟨n', k', hk', hbudget', hle⟩ := Process.budget_step hrun hk hbudget hP' hnext
        exact ⟨n', ⟨⟨es ++ [e], (Machine.exec_concat_eq_some _).mpr ⟨s, hrun, hnext⟩⟩,
          k', hk', hbudget'⟩, hle⟩)
      ⟨⟨es, hrun⟩, k, hk, hbudget⟩ hthrough hlater
    omega

/-- A thread has entered the handler of its first sample. -/
def inHandler : List ProcessEvent :=
  .start ⟨1⟩ false :: addSteps ⟨1⟩ "Load@1000".toList (.success 3 fun _ => 0) 1
    ++ [.sampling ⟨1⟩ (.sample 3 aLoad), .sampling ⟨1⟩ .deliver]

set_option maxRecDepth 10000 in
/-- It goes on for two steps. -/
theorem handler_ends_two_steps :
    ∃ s s' : Process .perf,
      (processMachine .x86 .intel .perf).exec (.init .perf) inHandler = some s ∧
      (processMachine .x86 .intel .perf).exec s
        [.sampling ⟨1⟩ (.handle 7), .sampling ⟨1⟩ (.handle 7)] = some s' ∧
      (∃ s'', (processMachine .x86 .intel .perf).next s (.sampling ⟨1⟩ (.handle 9)) = some s'') ∧
      [ProcessEvent.sampling ⟨1⟩ (.handle 7), .sampling ⟨1⟩ (.handle 7)].countP
        (ProcessEvent.isHandleOf ⟨1⟩) ≤ Geometry.x86.capacity + 2 := by
  have hhandler : ∀ n ≤ 2, ((processMachine .x86 .intel .perf).exec (.init .perf)
      (inHandler ++ List.replicate n (.sampling ⟨1⟩ (.handle 7)))).bind
        (fun s => (s.threads ⟨1⟩).map fun k => k.thread.handler)
        = some (some (3, if n = 0 then .entered else .draining)) := by
    decide +kernel
  have hruns : ∀ n ≤ 2, ∀ s : Process .perf, (processMachine .x86 .intel .perf).exec (.init .perf)
      (inHandler ++ List.replicate n (.sampling ⟨1⟩ (.handle 7))) = some s →
      ∃ k, s.threads ⟨1⟩ = some k ∧
        k.thread.handler = some (3, if n = 0 then .entered else .draining) := by
    intro n hn s hs
    have h := hhandler n hn
    rw [hs, Option.bind_some, Option.map_eq_some_iff] at h
    exact h
  have hhandling : ∀ n ≤ 2, ∀ s : Process .perf,
      (processMachine .x86 .intel .perf).exec (.init .perf)
        (inHandler ++ List.replicate n (.sampling ⟨1⟩ (.handle 7))) = some s →
      s.Handling ⟨1⟩ := by
    intro n hn s hs
    obtain ⟨k, hk, hph⟩ := hruns n hn s hs
    exact ⟨k, hk, hph ▸ Option.some_ne_none _⟩
  obtain ⟨s', hs', -⟩ := Option.bind_eq_some_iff.mp (hhandler 2 le_rfl)
  obtain ⟨s, hs, hlater⟩ := (Machine.exec_append_eq_some _).mp hs'
  have hs₀ : (processMachine .x86 .intel .perf).exec (.init .perf)
      (inHandler ++ List.replicate 0 (.sampling ⟨1⟩ (.handle 7))) = some s := by
    rw [List.replicate_zero, List.append_nil, hs]
  obtain ⟨k, hk, hph⟩ := hruns 0 (Nat.zero_le 2) s hs₀
  obtain ⟨hgoes, -, hbound⟩ := handler_ends hs hk hph
  refine ⟨s, s', hs, hlater, hgoes 9, hbound _ s' hlater ⟨hhandling 0 (Nat.zero_le 2) s hs₀, ?_⟩⟩
  intro s₁ hnext₁
  have hs₁ : (processMachine .x86 .intel .perf).exec (.init .perf)
      (inHandler ++ List.replicate 1 (.sampling ⟨1⟩ (.handle 7))) = some s₁ :=
    (Machine.exec_concat_eq_some _).mpr ⟨s, hs, hnext₁⟩
  refine ⟨hhandling 1 (by decide) s₁ hs₁, fun s₂ hnext₂ => hhandling 2 le_rfl s₂ ?_⟩
  exact (Machine.exec_append_eq_some _).mpr ⟨s, hs,
    (Machine.exec_cons_eq_some _).mpr ⟨s₁, hnext₁, (Machine.exec_singleton _ s₁ _).trans hnext₂⟩⟩

end AccessSampling
