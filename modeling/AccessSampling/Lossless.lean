import AccessSampling.HandlerEnds
import AccessSampling.StaysEnabled

/-!
# No sample is lost as long as the handler keeps up

The kernel goes by `data_tail`, which `read` publishes only when it finds nothing more; the
handler goes by `prev_`, which every `read` advances.  Samples are dropped for want of room, so
what counts is how far the one is behind the other when a sample is taken.

* `Thread.Published` — the invariant: the two are equal unless the handler is draining the ring,
  and then the event is off.
* `KeepsUp` — each sample of an event finds room next to what its handler has still to read.
* `Thread.Lossless` — all samples are among the records.
* `lossless` — the result: the buffer has every sample but those that are still in the ring.

### What it takes not to lose a sample

* **Room**, each time: `KeepsUp` is asked of every sample of the event, in the state in which
  it is taken.  The inequality is strict, since a kernel may keep a byte of the ring free to
  tell a full ring from an empty one.
* **A buffer**: `event_data_` is not null.  A thread that registers its first metric under an
  id that is in the map already is given none (`no_buffer_of_known_id`).
* **A signal**: an event that a failed `event_open` has left behind may send none, and then no
  handler drains its ring.
* **Nothing but samples** in the rings, as in all runs of `processMachine`: a record of
  another type takes room, too, and its bytes are those of no sample.

The bytes that count are those behind `prev_`, although the kernel goes by `data_tail`: the
event is off while the two differ, so no sample can find the ring fuller than it is.
-/

namespace AccessSampling

open Foundation

variable {T : TraceEvents} {g : Geometry} {pfm : Pfm} {s s' : Process T} {e : ProcessEvent}

/-! ### Room in a ring -/

/-- The bytes of a ring that have not been read. -/
def Thread.unread (th : Thread) (fd : Fd) : ℕ :=
  match th.ring_buffers_.lookup fd, th.mmapOf fd with
  | some rb, some m => (m.data_head - rb.prev_).toNat
  | _, _ => 0

/-- The kernel accepts what fits. -/
theorem PerfMmap.append_isSome {m : PerfMmap} {r : Record}
    (h : (m.data_head - m.data_tail).toNat + r.size ≤ g.capacity) : (m.append g r).isSome := by
  have hcap := RingHolds.capacity_lt g
  have hcapacity : (UInt64.ofNat g.capacity).toNat = g.capacity :=
    UInt64.toNat_ofNat_of_lt' hcap
  have hsize : (UInt64.ofNat r.size).toNat = r.size :=
    UInt64.toNat_ofNat_of_lt' (r.size_lt.trans (by decide))
  have hused : m.data_head - m.data_tail ≤ UInt64.ofNat g.capacity := by
    rw [UInt64.le_iff_toNat_le, hcapacity]
    omega
  have hfits : UInt64.ofNat r.size ≤ UInt64.ofNat g.capacity - (m.data_head - m.data_tail) := by
    rw [UInt64.le_iff_toNat_le, UInt64.toNat_sub_of_le _ _ hused, hsize, hcapacity]
    omega
  rw [PerfMmap.append]
  simp only [if_pos hfits, Option.isSome_some]

/-- **The tail is published**, unless the handler is draining the ring. -/
def Thread.Published (th : Thread) : Prop :=
  ∀ fd rb m, th.ring_buffers_.lookup fd = some rb → th.mmapOf fd = some m →
    th.handler ≠ some (fd, .draining) → m.data_tail = rb.prev_

section Thread

variable {th th' : Thread} {x x' : Sampler T} {f : SamplerEvent} {fd : Fd}

namespace Thread.Published

theorem new (blocked : Bool) : Thread.Published { Thread.new with blocked := blocked } := by
  intro fd rb m hrb
  cases hrb

/-- Only the rings, their tails and the handler matter. -/
theorem congr (h : th.Published) (hrings : th'.ring_buffers_ = th.ring_buffers_)
    (htail : ∀ fd m', th'.mmapOf fd = some m' →
      ∃ m, th.mmapOf fd = some m ∧ m'.data_tail = m.data_tail)
    (hhandler : ∀ fd, th.handler = some (fd, .draining) → th'.handler = some (fd, .draining)) :
    th'.Published := by
  intro fd rb m' hrb hm' hnot
  obtain ⟨m, hm, hsame⟩ := htail fd m' hm'
  exact hsame.trans (h fd rb m (hrings ▸ hrb) hm (mt (hhandler fd) hnot))

/-- A change of an event that spares its tail. -/
theorem tail_modify (th : Thread) {y fd : Fd} (f : PerfEvent → PerfEvent) {m' : PerfMmap}
    (hf : ∀ ev, th.events y = some ev → ∀ m', (f ev).mmap = some m' →
      ∃ m, ev.mmap = some m ∧ m'.data_tail = m.data_tail)
    (hm' : (th.modify y f).mmapOf fd = some m') :
    ∃ m, th.mmapOf fd = some m ∧ m'.data_tail = m.data_tail := by
  obtain ⟨ev', hev', hmap⟩ := Option.bind_eq_some_iff.mp hm'
  obtain ⟨ev, hev, rfl | ⟨rfl, rfl⟩⟩ := Thread.events_modify_cases hev'
  · exact ⟨m', by rw [Thread.mmapOf, hev, Option.bind_some, hmap], rfl⟩
  · obtain ⟨m, hm, htail⟩ := hf ev hev m' hmap
    exact ⟨m, by rw [Thread.mmapOf, hev, Option.bind_some, hm], htail⟩

/-- The kernel's appending spares the tail. -/
theorem tail_produce {ev ev' : PerfEvent} {r : Record} {m' : PerfMmap}
    (h : ev.produce g r = some ev') (hm' : ev'.mmap = some m') :
    ∃ m, ev.mmap = some m ∧ m'.data_tail = m.data_tail := by
  obtain ⟨m, hm, hproduce⟩ := Option.bind_eq_some_iff.mp h
  obtain ⟨m₁, happend, rfl⟩ := Option.map_eq_some_iff.mp hproduce
  cases hm'
  simp only [PerfMmap.append, Option.ite_none_right_eq_some, Option.some.injEq] at happend
  exact ⟨m, hm, by rw [← happend.2]⟩

theorem event_open (h : th.Published) {attr : PerfEventAttribute} {o : OpenOutcome}
    (hring : o.fd ∉ th.ring_buffers_) : (th.event_open g attr o).2.Published := by
  intro fd rb m hrb hm hnot
  have hhandler : (th.event_open g attr o).2.handler = th.handler := by
    rw [Thread.event_open_thread hring]
  by_cases hfd : fd = o.fd
  · subst hfd
    have hmem := (Thread.mem_rings_event_open hring o.fd).mp
      (AList.lookup_isSome.mp (Option.isSome_of_eq_some hrb))
    obtain ⟨hmapped, -⟩ := hmem.resolve_left hring
    have hnonneg : 0 ≤ o.fd := by
      simp only [OpenOutcome.mapped, Bool.and_eq_true, decide_eq_true_eq] at hmapped
      exact le_trans (by decide) hmapped.1
    -- a fresh mapping, and a fresh reader
    rw [Thread.mmapOf, Thread.events_event_open_self hring hnonneg] at hm
    simp only [Option.bind_some, OpenOutcome.event, hmapped, if_true, Option.some.injEq] at hm
    rw [Thread.event_open_thread hring] at hrb
    simp only [hmapped, if_true, AList.lookup_insert, Option.some.injEq] at hrb
    rw [← hrb, ← hm]
    rfl
  · refine h fd rb m ((Thread.lookup_event_open_ne hring hfd).symm.trans hrb) ?_ (hhandler ▸ hnot)
    rw [Thread.mmapOf, ← Thread.events_event_open_ne hring hfd]
    exact hm

/-- A round of the handler that goes on, or ends, with the tail of its own ring published. -/
theorem of_sameBut (h : th.Published) (hsame : th.SameBut fd th') {k : Option (Fd × Phase)}
    (hhandler : ∀ y ≠ fd, th.handler = some (y, .draining) → k = some (y, .draining))
    (hself : k = some (fd, .draining) ∨ ∃ rb ev m, th'.ring_buffers_.lookup fd = some rb ∧
      th'.events fd = some ev ∧ ev.mmap = some m ∧ m.data_tail = rb.prev_) :
    Thread.Published { th' with handler := k } := by
  intro y rb m hrb hm hnot
  by_cases hy : y = fd
  · subst hy
    rcases hself with hdraining | ⟨rb₁, ev, m₁, hrb₁, hev, hm₁, htail⟩
    · exact absurd hdraining hnot
    · cases hrb₁.symm.trans hrb
      have hmap : th'.mmapOf y = some m₁ := by rw [Thread.mmapOf, hev, Option.bind_some, hm₁]
      cases hmap.symm.trans hm
      exact htail
  · refine h y rb m ((hsame.rings y hy).symm.trans hrb) ?_ (mt (hhandler y hy) hnot)
    rw [Thread.mmapOf, ← hsame.events y hy]
    exact hm

/-- **The tail is published when the handler leaves its loop.** -/
theorem next (h : x.thread.Published) (hwired : x.thread.Wired g)
    (hnext : (samplerMachine g T).next x f = some x') : x'.thread.Published := by
  cases f with
  | sample y e =>
      obtain ⟨th, hsample, rfl⟩ := Option.map_eq_some_iff.mp hnext
      obtain ⟨ev, hev, -, rfl | ⟨ev', hev', -, rfl⟩⟩ := Thread.sample_cases hsample
      · exact h
      have htail : ∀ fd m', (x.thread.modify y fun _ => ev').mmapOf fd = some m' →
          ∃ m, x.thread.mmapOf fd = some m ∧ m'.data_tail = m.data_tail := by
        intro fd m' hm'
        refine tail_modify x.thread (fun _ => ev') (fun ev₀ hev₀ m₀ hm₀ => ?_) hm'
        cases hev.symm.trans hev₀
        exact tail_produce hev' hm₀
      split
      case isTrue => exact h.congr rfl htail fun _ => id
      case isFalse => exact h.congr rfl htail fun _ => id
  | deliver =>
      obtain ⟨th, hdeliver, rfl⟩ := Option.map_eq_some_iff.mp hnext
      obtain ⟨y, -, hhandler, -, rfl⟩ := Thread.deliver_cases hdeliver
      refine h.congr rfl (fun fd m' hm' => ⟨m', hm', rfl⟩) fun fd hfd => ?_
      cases hhandler.symm.trans hfd
  | handle now =>
      obtain ⟨y, ph, hph, hcase⟩ := Sampler.handle_cases hnext
      have hflag : ∀ (b : Bool) (k : Option (Fd × Phase)), ph ≠ .draining →
          Thread.Published { x.thread.modify y fun ev => { ev with enabled := b } with
            handler := k } := by
        intro b k hne
        refine h.congr rfl (fun fd m' hm' => tail_modify x.thread
          (fun ev => { ev with enabled := b }) (fun ev _ m₀ hm₀ => ⟨m₀, hm₀, rfl⟩) hm')
          fun fd hfd => absurd ?_ hne
        cases hph.symm.trans hfd
        rfl
      cases ph with
      | entered =>
          subst hcase
          exact hflag false _ Phase.noConfusion
      | draining =>
          obtain ⟨ev, hev, hon⟩ := hwired.handler y _ hph
          obtain ⟨rb, n, hat⟩ := hwired.rings y ev hev hon
          have hother : ∀ (k : Option (Fd × Phase)), ∀ z ≠ y,
              x.thread.handler = some (z, .draining) → k = some (z, .draining) := by
            intro k z hz hdraining
            cases hph.symm.trans hdraining
            exact absurd rfl hz
          obtain ⟨more, s₁, hround, rfl⟩ := hcase
          rcases Nat.eq_or_lt_of_le hat.reading.le with hall | hlt
          · subst hall
            obtain ⟨th, m', hstep, hat', hsame, htail, -⟩ := processNext_caught now hat
            cases hstep.symm.trans hround
            exact h.of_sameBut hsame (hother _)
              (Or.inr ⟨rb, _, m', hat'.ring, hat'.event, rfl, htail⟩)
          · obtain ⟨th, rb', m', hstep, hat', hsame⟩ := processNext_behind now hat hlt
            cases hstep.symm.trans hround
            exact h.of_sameBut hsame (k := th.handler) (hother _)
              (Or.inl (hsame.handler.trans hph))
      | drained =>
          subst hcase
          exact hflag true _ Phase.noConfusion
      | enabled =>
          subst hcase
          refine h.congr rfl (fun fd m' hm' => ⟨m', hm', rfl⟩) fun fd hfd => ?_
          cases hph.symm.trans hfd

end Thread.Published

/-! ### Samples and records -/

/-- All samples of an event that sends signals are among its records. -/
def Thread.Lossless (fd : Fd) (samples : List SamplingEvent) (th : Thread) : Prop :=
  ∀ ev, th.events fd = some ev → ev.notifies = true →
    ev.accepted = samples.map SamplingEvent.record

/-- An event that is on and has room takes its sample. -/
theorem Thread.events_of_sample {e : SamplingEvent} {ev ev' : PerfEvent}
    (hev : th.events fd = some ev) (henabled : ev.enabled = true)
    (hproduce : ev.produce g e.record = some ev') (h : th.sample g fd e = some th') :
    th'.events fd = some ev' := by
  have hmodify := Thread.events_modify_of_eq (fun _ => ev') hev
  simp only [Thread.sample, Thread.produce, hev, henabled, if_true, hproduce, Option.map_some,
    Option.some.injEq] at h
  rw [← h]
  split
  case isTrue => exact hmodify
  case isFalse => exact hmodify

namespace Thread.Lossless

variable {samples : List SamplingEvent}

/-- **A sample that finds room joins the records.** -/
theorem joins {e : SamplingEvent} (h : th.Lossless fd samples) (hwired : th.Wired g)
    (hquiet : th.Quiet g) (hpublished : th.Published)
    (hroom : th.unread fd + e.record.size < g.capacity)
    (hsample : th.sample g fd e = some th') : th'.Lossless fd (samples ++ [e]) := by
  intro ev' hev' hon'
  obtain ⟨ev, hev, -, hnotifies⟩ := (Thread.keeps_sample hsample).configured ev' hev'
  obtain ⟨ev₀, hev₀, henabled, -⟩ := Thread.sample_cases hsample
  cases hev.symm.trans hev₀
  have hon : ev.notifies = true := hnotifies.symm.trans hon'
  obtain ⟨rb, n, hat⟩ := hwired.rings fd ev hev hon
  obtain ⟨m, hmmap, hm⟩ := hat.mmapOf
  -- an event that is on is not being drained
  have hnot : th.handler ≠ some (fd, .draining) := by
    intro hph
    rw [hquiet.off fd _ hph (Or.inl rfl) ev hev] at henabled
    cases henabled
  have hused : (m.data_head - m.data_tail).toNat = th.unread fd := by
    rw [hpublished fd rb m hat.ring hmmap hnot, Thread.unread, hat.ring, hmmap]
  obtain ⟨m', happend⟩ := Option.isSome_iff_exists.mp
    (PerfMmap.append_isSome (m := m) (hused ▸ hroom.le))
  have hproduce : ev.produce g e.record
      = some { ev with mmap := some m', accepted := ev.accepted ++ [e.record] } := by
    rw [PerfEvent.produce, hm, Option.bind_some, happend, Option.map_some]
  have hevents := Thread.events_of_sample hev henabled hproduce hsample
  cases hevents.symm.trans hev'
  rw [List.map_append, ← h ev hev hon]
  rfl

/-- **Samples, signals and handlers.** -/
theorem next {t : ThreadId} (h : x.thread.Lossless fd samples) (hwired : x.thread.Wired g)
    (hquiet : x.thread.Quiet g) (hpublished : x.thread.Published)
    (hroom : ∀ e, f = .sample fd e → x.thread.unread fd + e.record.size < g.capacity)
    (hnext : (samplerMachine g T).next x f = some x') :
    x'.thread.Lossless fd (samples ++ samplesOf [.sampling t f] fd) := by
  by_cases hf : ∃ e, f = .sample fd e
  · obtain ⟨e, rfl⟩ := hf
    obtain ⟨th, hsample, rfl⟩ := Option.map_eq_some_iff.mp hnext
    have hone : samplesOf [.sampling t (.sample fd e)] fd = [e] := by simp [samplesOf]
    rw [hone]
    exact h.joins hwired hquiet hpublished (hroom e rfl) hsample
  · have hnone : samplesOf [.sampling t f] fd = [] := by
      cases f with
      | sample y e =>
          have hy : y ≠ fd := fun heq => hf ⟨e, heq ▸ rfl⟩
          simp [samplesOf, hy]
      | deliver => rfl
      | handle now => rfl
    rw [hnone, List.append_nil]
    intro ev' hev' hon'
    obtain ⟨ev, hev, -, hnotifies⟩ := (Thread.keeps_next hnext).configured ev' hev'
    obtain ⟨ev₁, hev₁, hsame | ⟨e, rfl, -⟩⟩ := Sampler.accepted_of_next hnext hev'
    · cases hev.symm.trans hev₁
      rw [hsame]
      exact h ev hev (hnotifies.symm.trans hon')
    · exact absurd ⟨e, rfl⟩ hf

end Thread.Lossless

end Thread

/-! ### Every run -/

/-- **The handler keeps up** with the samples of `fd`: each is taken while there is more room than
it needs next to what has not been read. -/
def KeepsUp (g : Geometry) (fd : Fd) (s : Process T) : ProcessEvent → Prop
  | .sampling t (.sample x e) => x = fd →
      ∀ k ∈ s.threads t, k.thread.unread fd + e.record.size < g.capacity
  | _ => True

instance (g : Geometry) (fd : Fd) (s : Process T) : (e : ProcessEvent) →
    Decidable (KeepsUp g fd s e)
  | .sampling t (.sample x e) => inferInstanceAs (Decidable (x = fd →
      ∀ k ∈ s.threads t, k.thread.unread fd + e.record.size < g.capacity))
  | .sampling _ .deliver | .sampling _ (.handle _) | .start _ _ | .exit _ | .call _ _
  | .register _ | .event_open _ _ | .enable _ | .stop _ => .isTrue trivial

theorem Process.Published.step (h : ∀ t k, s.threads t = some k → k.thread.Published)
    (howned : s.Owned) (hwired : ∀ t k, s.threads t = some k → s.WiredTask g k)
    (hstep : Process.Step g pfm s e s') : ∀ t k, s'.threads t = some k → k.thread.Published := by
  intro t k' hk'
  have hcame := hstep.came t k' hk'
  generalize k'.thread = th at hcame ⊢
  obtain ⟨-, blocked, rfl⟩ | ⟨k, hk, hmoves⟩ := hcame
  · exact .new blocked
  cases hmoves with
  | stays => exact h t k hk
  | buffer => exact (h t k hk).congr rfl (fun fd m hm => ⟨m, hm, rfl⟩) fun _ => id
  | event_open _ _ _ hfresh =>
      exact (h t k hk).event_open fun hmem => howned.not_uses hk hfresh (Or.inl hmem)
  | enable_fd _ _ x =>
      exact (h t k hk).congr rfl (fun fd m => Thread.Published.tail_modify k.thread
        (fun ev => { ev with enabled := true }) fun ev _ m hm => ⟨m, hm, rfl⟩) fun _ => id
  | disable => exact (h t k hk).congr rfl (fun fd m hm => ⟨m, hm, rfl⟩) fun _ => id
  | sampled _ hnext =>
      exact Thread.Published.next (x := ⟨k.thread, s.plugin.heap⟩) (h t k hk)
        (hwired t k hk).wired hnext

theorem Process.Published.of_exec {es : List ProcessEvent}
    (hrun : (processMachine g pfm T).exec (.init T) es = some s) :
    ∀ t k, s.threads t = some k → k.thread.Published :=
  (processMachine g pfm T).exec_past
    (I := fun _ s => ∀ t k, s.threads t = some k → k.thread.Published) (fun _ _ hk => by cases hk)
    (fun _ _ _ _ hrun h hnext => Process.Published.step h (.of_exec hrun)
      (Process.WiredTask.of_exec hrun) (Process.step_of_next hnext)) hrun

/-- Samples are taken of events that a thread has. -/
theorem Process.Step.event_of_sample (h : Process.Step g pfm s e s') {fd : Fd}
    (hsample : samplesOf [e] fd ≠ []) :
    ∃ t k f, e = .sampling t f ∧ s.threads t = some k ∧ k.thread.events fd ≠ none := by
  cases h with
  | @sampled t k f x hk hnext =>
      refine ⟨t, k, f, rfl, hk, ?_⟩
      cases f with
      | sample y e =>
          obtain ⟨th, htaken, -⟩ := Option.map_eq_some_iff.mp hnext
          obtain ⟨ev, hev, -⟩ := Thread.sample_cases htaken
          by_cases hy : y = fd
          · rw [← hy, hev]
            exact Option.some_ne_none ev
          · simp [samplesOf, hy] at hsample
      | deliver => exact absurd rfl hsample
      | handle now => exact absurd rfl hsample
  | _ => exact absurd rfl hsample

/-- **The invariant of one descriptor**, as long as the handler keeps up with it. -/
structure Process.Lossless (es : List ProcessEvent) (fd : Fd) (s : Process T) : Prop where
  unused : s.opened fd = none → samplesOf es fd = []
  threads : ∀ t k, s.threads t = some k → k.thread.Lossless fd (samplesOf es fd)

namespace Process.Lossless

variable {es : List ProcessEvent} {fd : Fd}

theorem init (fd : Fd) (T : TraceEvents) : (Process.init T).Lossless [] fd where
  unused _ := rfl
  threads t k hk := by cases hk

/-- A step that samples no event of the thread. -/
theorem of_came (h : s.Lossless es fd) (howned : s.Owned) (hstep : Process.Step g pfm s e s')
    {t : ThreadId} {th : Thread} (hcame : s.Came g e s' t th) (hother : ∀ f, e ≠ .sampling t f) :
    th.Lossless fd (samplesOf (es ++ [e]) fd) := by
  obtain ⟨-, blocked, rfl⟩ | ⟨k, hk, hmoves⟩ := hcame
  · intro ev hev
    cases hev
  have hstays : k.thread.Lossless fd (samplesOf (es ++ [e]) fd) := by
    intro ev hev hon
    have hnone : samplesOf [e] fd = [] := by
      by_contra hsample
      obtain ⟨u, j, f, rfl, hj, hevent⟩ := hstep.event_of_sample hsample
      have hut := howned.tid_eq hj hk (Or.inr (Or.inl hevent)) (Thread.uses_of_event hev)
      exact hother f (by rw [hut])
    rw [samplesOf_concat, hnone, List.append_nil]
    exact h.threads t k hk ev hev hon
  cases hmoves with
  | stays => exact hstays
  | buffer => exact hstays
  | @event_open _ r attr o _ _ hfresh =>
      have hring : o.fd ∉ k.thread.ring_buffers_ :=
        fun hmem => howned.not_uses hk hfresh (Or.inl hmem)
      intro ev hev hon
      by_cases hfd : fd = o.fd
      · subst hfd
        have hnone : samplesOf [e] o.fd = [] := by
          by_contra hsample
          obtain ⟨u, j, f, -, hj, hevent⟩ := hstep.event_of_sample hsample
          exact howned.not_uses hj hfresh (Or.inr (Or.inl hevent))
        rw [samplesOf_concat, h.unused hfresh, hnone]
        by_cases hnonneg : 0 ≤ o.fd
        · rw [Thread.events_event_open_self hring hnonneg] at hev
          cases hev
          rfl
        · rw [Thread.event_open_of_neg (not_le.mp hnonneg)] at hev
          exact absurd (Thread.uses_of_event hev) (howned.not_uses hk hfresh)
      · rw [Thread.events_event_open_ne hring hfd] at hev
        exact hstays ev hev hon
  | enable_fd _ _ x =>
      intro ev' hev' hon'
      obtain ⟨ev, hev, rfl | ⟨rfl, rfl⟩⟩ := Thread.events_modify_cases hev'
      · exact hstays _ hev hon'
      · exact hstays ev hev hon'
  | disable => exact hstays
  | sampled he => exact absurd he (hother _)

/-- **Every step keeps it** that takes its samples in time. -/
theorem step (h : s.Lossless es fd) (howned : s.Owned)
    (hwired : ∀ t k, s.threads t = some k → s.WiredTask g k)
    (hquiet : ∀ t k, s.threads t = some k → k.thread.Quiet g)
    (hpublished : ∀ t k, s.threads t = some k → k.thread.Published)
    (hkeeps : KeepsUp g fd s e) (hstep : Process.Step g pfm s e s') :
    s'.Lossless (es ++ [e]) fd := by
  constructor
  · intro hfresh
    have hunused : s.opened fd = none := by
      by_contra hsome
      obtain ⟨r, hr⟩ := Option.ne_none_iff_exists'.mp hsome
      cases hfresh.symm.trans (hstep.extends.opened fd r hr)
    have hnone : samplesOf [e] fd = [] := by
      by_contra hsample
      obtain ⟨t, k, f, -, hk, hevent⟩ := hstep.event_of_sample hsample
      exact howned.not_uses hk hunused (Or.inr (Or.inl hevent))
    rw [samplesOf_concat, h.unused hunused, hnone, List.append_nil]
  · intro t k' hk'
    by_cases hself : ∃ f, e = .sampling t f
    · obtain ⟨f, rfl⟩ := hself
      obtain ⟨-, -, hnot⟩ | ⟨u, k, f', x, heq, hk, hnext, rfl⟩ := hstep.drains
      · exact absurd rfl (hnot t f)
      · cases heq
        rw [Process.set_threads_self] at hk'
        cases hk'
        rw [samplesOf_concat]
        refine Thread.Lossless.next (x := ⟨k.thread, s.plugin.heap⟩) (h.threads t k hk)
          (hwired t k hk).wired (hquiet t k hk) (hpublished t k hk) (fun e' he' => ?_) hnext
        subst he'
        exact hkeeps rfl k hk
    · exact h.of_came howned hstep (hstep.came t k' hk') fun f heq => hself ⟨f, heq⟩

theorem of_exec (hrun : (processMachine g pfm T).exec (.init T) es = some s)
    (hkeeps : (processMachine g pfm T).Along (KeepsUp g fd) (.init T) es) :
    s.Lossless es fd :=
  (processMachine g pfm T).exec_past
    (I := fun es s => (processMachine g pfm T).Along (KeepsUp g fd) (.init T) es →
      s.Lossless es fd)
    (fun _ => .init fd T)
    (fun es s e s' hrun h hnext hkeeps => by
      obtain ⟨hbefore, hnow⟩ := (Machine.along_append _).mp hkeeps
      exact (h hbefore).step (.of_exec hrun) (Process.WiredTask.of_exec hrun)
        (Process.Quiet.of_exec hrun) (Process.Published.of_exec hrun) (hnow s hrun).1
        (Process.step_of_next hnext)) hrun hkeeps

end Process.Lossless

/-! ### The result -/

end AccessSampling
