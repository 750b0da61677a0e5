import AccessSampling.Attribution
import AccessSampling.Foundation.Simulation
import AccessSampling.Ownership

/-!
# An event stays enabled

`event_open` leaves an event disabled, and the loop of `enable ()` turns on every event that
the thread has a ring for.  Meanwhile samples are taken, and the handler, which disables the
event it is about to drain, comes and goes, perhaps between two rounds of the loop.

* `Thread.On` — an event is enabled, unless its own handler is draining it.
* `Thread.Keeps` — what no step of a thread takes away from one of its events.
* `Process.TaskOn` — the invariant: of a call that is in the loop, the new event is on, or
  still to be enabled; of a call that has returned, it is on.
* `stays_enabled` — from the return of `add_metric` until the thread exits, the event has the
  attributes of the metric, sends its signals, and is on.

**To take a sample** is one thing, and to have room for it another: an event that is on takes
its next sample, and if the ring is full the kernel drops it.  What is shown here is that the
plugin does not leave an event switched off; what becomes of its samples is asked in
`Lossless`.
-/

namespace AccessSampling

open Foundation

variable {T : TraceEvents} {g : Geometry} {pfm : Pfm}

/-! ### One thread -/

/-- The event is enabled, unless its own handler is between `disable (fd)` and
`enable (fd)`. -/
def Thread.On (th : Thread) (fd : Fd) : Prop :=
  ∀ ev, th.events fd = some ev → ev.enabled = true ∨
    th.handler = some (fd, .draining) ∨ th.handler = some (fd, .drained)

/-- The event sends its signals. -/
def Thread.Sends (th : Thread) (fd : Fd) : Prop :=
  ∀ ev, th.events fd = some ev → ev.notifies = true

/-- The thread has the event it had, configured as it was, and on if it was on. -/
structure Thread.Keeps (th th' : Thread) (fd : Fd) : Prop where
  configured : ∀ ev', th'.events fd = some ev' → ∃ ev, th.events fd = some ev ∧
    ev'.attr = ev.attr ∧ ev'.notifies = ev.notifies
  there : th.events fd ≠ none → th'.events fd ≠ none
  on : th.On fd → th'.On fd

namespace Thread

variable {th th' th'' : Thread} {fd x : Fd}

theorem Keeps.sends (h : th.Keeps th' fd) (hsends : th.Sends fd) : th'.Sends fd := by
  intro ev' hev'
  obtain ⟨ev, hev, -, hnotifies⟩ := h.configured ev' hev'
  exact hnotifies.trans (hsends ev hev)

/-- Neither the event nor the handler has changed. -/
theorem Keeps.of_eq (hevents : th'.events fd = th.events fd) (hhandler : th'.handler = th.handler) :
    th.Keeps th' fd where
  configured ev' hev' := ⟨ev', hevents ▸ hev', rfl, rfl⟩
  there hsome := hevents ▸ hsome
  on hon ev' hev' := by
    rw [hhandler]
    exact hon ev' (hevents ▸ hev')

theorem Keeps.trans (h : th.Keeps th' fd) (h' : th'.Keeps th'' fd) : th.Keeps th'' fd where
  configured ev'' hev'' := by
    obtain ⟨ev', hev', hattr', hnotifies'⟩ := h'.configured ev'' hev''
    obtain ⟨ev, hev, hattr, hnotifies⟩ := h.configured ev' hev'
    exact ⟨ev, hev, hattr'.trans hattr, hnotifies'.trans hnotifies⟩
  there hsome := h'.there (h.there hsome)
  on hon := h'.on (h.on hon)

/-- A change of an event that spares its configuration. -/
theorem keeps_modify {f : PerfEvent → PerfEvent} {k : Option (Fd × Phase)}
    (hf : ∀ ev, th.events x = some ev → (f ev).attr = ev.attr ∧ (f ev).notifies = ev.notifies)
    (hon : th.On fd → Thread.On { th.modify x f with handler := k } fd) :
    th.Keeps { th.modify x f with handler := k } fd where
  configured ev' hev' := by
    obtain ⟨ev, hev, rfl | ⟨rfl, rfl⟩⟩ := Thread.events_modify_cases hev'
    · exact ⟨_, hev, rfl, rfl⟩
    · exact ⟨ev, hev, hf ev hev⟩
  there hsome hnone := by
    by_cases hfd : fd = x
    · subst hfd
      exact hsome (Option.map_eq_none_iff.mp ((events_modify_self th fd f).symm.trans hnone))
    · exact hsome ((events_modify_ne th x f hfd).symm.trans hnone)
  on := hon

/-- An event is enabled when the handler is not draining it. -/
theorem On.enabled (h : th.On fd) {ev : PerfEvent} (hev : th.events fd = some ev)
    (hdraining : th.handler ≠ some (fd, .draining)) (hdrained : th.handler ≠ some (fd, .drained)) :
    ev.enabled = true := by
  rcases h ev hev with henabled | h | h
  · exact henabled
  · exact absurd h hdraining
  · exact absurd h hdrained

/-- The handler of another event leaves this one enabled. -/
theorem On.of_handler (h : th.On fd) {ph : Phase} {k : Option (Fd × Phase)}
    (hph : th.handler = some (x, ph)) (hfd : fd ≠ x)
    (hevents : th'.events fd = th.events fd) : Thread.On { th' with handler := k } fd := by
  have hne : ∀ ph', th.handler ≠ some (fd, ph') := by
    intro ph' hph'
    cases hph.symm.trans hph'
    exact hfd rfl
  exact fun ev hev => Or.inl (h.enabled (hevents ▸ hev) (hne _) (hne _))

/-- A change that leaves an event enabled if it was, and the handler where it is. -/
theorem On.modify {f : PerfEvent → PerfEvent} (h : th.On fd)
    (hf : ∀ ev, th.events x = some ev → ev.enabled = true → (f ev).enabled = true) :
    (th.modify x f).On fd := by
  intro ev' hev'
  obtain ⟨ev, hev, rfl | ⟨rfl, rfl⟩⟩ := Thread.events_modify_cases hev'
  · exact h _ hev
  · exact (h ev hev).imp_left (hf ev hev)

/-- `enable (int fd)` enables its event. -/
theorem enabled_enable_fd {ev : PerfEvent} (h : (th.enable_fd fd).events fd = some ev) :
    ev.enabled = true := by
  obtain ⟨ev, -, rfl⟩ := Option.map_eq_some_iff.mp ((events_modify_self th fd _).symm.trans h)
  rfl

theorem keeps_enable_fd (th : Thread) (x fd : Fd) : th.Keeps (th.enable_fd x) fd :=
  keeps_modify (fun _ _ => ⟨rfl, rfl⟩) fun hon => hon.modify fun _ _ _ => rfl

theorem keeps_event_open {attr : PerfEventAttribute} {o : OpenOutcome}
    (hring : o.fd ∉ th.ring_buffers_) (hfd : fd ≠ o.fd) :
    th.Keeps (th.event_open g attr o).2 fd := by
  refine .of_eq (events_event_open_ne hring hfd) ?_
  rw [event_open_thread hring]

/-- `event_open` returns only when none of its calls has failed. -/
theorem succeeds_of_event_open {attr : PerfEventAttribute} {o : OpenOutcome}
    (h : (th.event_open g attr o).1 = .ok ()) : o.succeeds = true := by
  simp only [event_open] at h
  split_ifs at h with hfd hmmap hsetfl hsetown hsetfd hsetsig hreset
  all_goals simp_all [OpenOutcome.succeeds, OpenOutcome.mapped]

/-- The event that it has opened sends its signals, and has a ring. -/
theorem notifies_of_event_open {attr : PerfEventAttribute} {o : OpenOutcome}
    (h : (th.event_open g attr o).1 = .ok ()) :
    (o.event attr).notifies = true ∧ o.mapped = true ∧ 0 ≤ o.fd := by
  have hsucceeds := succeeds_of_event_open h
  simp only [OpenOutcome.succeeds, Bool.and_eq_true] at hsucceeds
  obtain ⟨⟨⟨⟨⟨hmapped, hsetfl⟩, hsetown⟩, hsetfd⟩, hsetsig⟩, -⟩ := hsucceeds
  refine ⟨?_, hmapped, le_trans (by decide) (pos_of_event_open h)⟩
  simp [PerfEvent.notifies, OpenOutcome.event, hmapped, hsetfl, hsetown, hsetfd, hsetsig]

end Thread

section Sampler

variable {x x' : Sampler T} {fd : Fd}

/-- A sample takes nothing away. -/
theorem Thread.keeps_sample {th th' : Thread} {y : Fd} {e : SamplingEvent}
    (h : th.sample g y e = some th') : th.Keeps th' fd := by
  obtain ⟨ev, hev, henabled, rfl | ⟨ev', hev', -, rfl⟩⟩ := Thread.sample_cases h
  · exact .of_eq rfl rfl
  obtain ⟨hnotifies, hsame⟩ := PerfEvent.produce_flags hev'
  have hattr : ev'.attr = ev.attr := by
    obtain ⟨m, -, hproduce⟩ := Option.bind_eq_some_iff.mp hev'
    obtain ⟨m', -, rfl⟩ := Option.map_eq_some_iff.mp hproduce
    rfl
  have hkept : th.Keeps (th.modify y fun _ => ev') fd := by
    refine keeps_modify (fun ev₀ hev₀ => ?_) fun hon => hon.modify fun _ _ _ => hsame.trans henabled
    cases hev.symm.trans hev₀
    exact ⟨hattr, hnotifies⟩
  split
  case isTrue => exact hkept.trans (.of_eq rfl rfl)
  case isFalse => exact hkept

/-- **Samples, signals and handlers take nothing away.** -/
theorem Thread.keeps_next {f : SamplerEvent} (h : (samplerMachine g T).next x f = some x') :
    x.thread.Keeps x'.thread fd := by
  cases f with
  | sample y e =>
      obtain ⟨th, hsample, rfl⟩ := Option.map_eq_some_iff.mp h
      exact Thread.keeps_sample hsample
  | deliver =>
      obtain ⟨th, hdeliver, rfl⟩ := Option.map_eq_some_iff.mp h
      obtain ⟨y, -, hhandler, -, rfl⟩ := Thread.deliver_cases hdeliver
      refine ⟨fun ev hev => ⟨ev, hev, rfl, rfl⟩, id, fun hon ev hev => Or.inl ?_⟩
      -- no handler runs that could be draining
      exact hon.enabled hev (hhandler ▸ nofun) (hhandler ▸ nofun)
  | handle now =>
      obtain ⟨y, ph, hph, hcase⟩ := Sampler.handle_cases h
      cases ph with
      | entered =>
          subst hcase
          refine Thread.keeps_modify (f := fun ev => { ev with enabled := false })
            (fun _ _ => ⟨rfl, rfl⟩) fun hon => ?_
          by_cases hfd : fd = y
          · subst hfd
            intro ev' _
            by_cases hring : fd ∈ x.thread.ring_buffers_
            · exact Or.inr (Or.inl (by rw [if_pos hring]))
            · exact Or.inr (Or.inr (by rw [if_neg hring]))
          · exact hon.of_handler hph hfd (Thread.events_modify_ne _ _ _ hfd)
      | draining =>
          obtain ⟨more, s₁, hround, rfl⟩ := hcase
          obtain ⟨-, rb, m, hthread⟩ := Sampler.processNext_thread hround
          have hkept : ∀ k : Option (Fd × Phase), k = some (y, .draining) ∨ k = some (y, .drained) →
              x.thread.Keeps { s₁.thread with handler := k } fd := by
            intro k hk
            rw [hthread]
            refine (Thread.keeps_modify (x := y) (k := k)
              (f := fun ev => { ev with mmap := some m }) (fun _ _ => ⟨rfl, rfl⟩)
              fun hon => ?_).trans (.of_eq rfl rfl)
            by_cases hfd : fd = y
            · subst hfd
              exact fun _ _ => Or.inr hk
            · exact hon.of_handler hph hfd (Thread.events_modify_ne _ _ _ hfd)
          cases more with
          | true =>
              have hsame : s₁.thread.handler = some (y, .draining) := by
                rw [hthread]
                exact hph
              have h₁ := hkept s₁.thread.handler (Or.inl hsame)
              exact h₁
          | false => exact hkept _ (Or.inr rfl)
      | drained =>
          subst hcase
          refine Thread.keeps_modify (f := fun ev => { ev with enabled := true })
            (fun _ _ => ⟨rfl, rfl⟩) fun hon => ?_
          by_cases hfd : fd = y
          · subst hfd
            exact fun ev' hev' => Or.inl (Thread.enabled_enable_fd hev')
          · exact hon.of_handler hph hfd (Thread.events_modify_ne _ _ _ hfd)
      | enabled =>
          subst hcase
          refine ⟨fun ev hev => ⟨ev, hev, rfl, rfl⟩, id, fun hon ev hev => Or.inl ?_⟩
          exact hon.enabled hev (hph ▸ nofun) (hph ▸ nofun)

end Sampler

/-! ### Every thread -/

variable {s s' : Process T} {e : ProcessEvent}

/-- The attributes that a call opens its event with are those of its metric. -/
def Frame.Encoded (pfm : Pfm) : Frame → Prop
  | .encoded metric event attr => encode pfm metric = .ok (event, attr)
  | .registered r attr => encode pfm r.metric = .ok (r.event, attr)
  | .enabling _ _ _ => True

/-- **What holds of a thread.** -/
structure Process.TaskOn (pfm : Pfm) (s : Process T) (k : Task) : Prop where
  call : ∀ f, k.call = some f → f.Encoded pfm
  attr : ∀ fd ev, k.thread.events fd = some ev →
    ∃ r, s.opened fd = some r ∧ encode pfm r.metric = .ok (r.event, ev.attr)
  enabling : ∀ r fd fds, k.call = some (.enabling r fd fds) →
    k.thread.events fd ≠ none ∧ k.thread.Sends fd ∧ (fd ∈ fds ∨ k.thread.On fd)
  returned : ∀ x ∈ s.returned, k.thread.Sends x.2 ∧ k.thread.On x.2

namespace Process.TaskOn

variable {k k' : Task}

theorem new (pfm : Pfm) (s : Process T) (blocked : Bool) :
    s.TaskOn pfm ⟨{ Thread.new with blocked := blocked }, none, false⟩ where
  call f hf := by cases hf
  attr fd ev hev := by cases hev
  enabling r fd fds hcall := by cases hcall
  returned x hx := ⟨fun ev hev => (by cases hev), fun ev hev => (by cases hev)⟩

/-- A step by which no call returns, and after which the thread has the events it had. -/
theorem of_keeps (h : s.TaskOn pfm k) (hext : s.Extends s') (hreturned : s'.returned = s.returned)
    (hkeeps : ∀ fd, k.thread.Keeps k'.thread fd) (hcall : ∀ f, k'.call = some f → f.Encoded pfm)
    (henabling : ∀ r fd fds, k'.call = some (.enabling r fd fds) →
      k.thread.events fd ≠ none ∧ k.thread.Sends fd ∧ (fd ∈ fds ∨ k'.thread.On fd)) :
    s'.TaskOn pfm k' where
  call := hcall
  attr fd ev' hev' := by
    obtain ⟨ev, hev, hattr, -⟩ := (hkeeps fd).configured ev' hev'
    obtain ⟨r, hr, hencode⟩ := h.attr fd ev hev
    exact ⟨r, hext.opened fd r hr, hattr ▸ hencode⟩
  enabling r fd fds hk := by
    obtain ⟨hthere, hsends, hon⟩ := henabling r fd fds hk
    exact ⟨(hkeeps fd).there hthere, (hkeeps fd).sends hsends, hon⟩
  returned x hx := by
    obtain ⟨hsends, hon⟩ := h.returned x (hreturned ▸ hx)
    exact ⟨(hkeeps x.2).sends hsends, (hkeeps x.2).on hon⟩

/-- A step of the thread that leaves its call where it is. -/
theorem of_call (h : s.TaskOn pfm k) (hext : s.Extends s') (hreturned : s'.returned = s.returned)
    (hkeeps : ∀ fd, k.thread.Keeps k'.thread fd) (hcall : k'.call = k.call) :
    s'.TaskOn pfm k' := by
  refine h.of_keeps hext hreturned hkeeps (hcall ▸ h.call) fun r fd fds hk => ?_
  obtain ⟨hthere, hsends, hon⟩ := h.enabling r fd fds (hcall ▸ hk)
  exact ⟨hthere, hsends, hon.imp_right (hkeeps fd).on⟩

/-- `event_open`, whether it fails or not. -/
theorem of_event_open (h : s.TaskOn pfm k) (hext : s.Extends s')
    (hreturned : s'.returned = s.returned) {r : Registration} {attr : PerfEventAttribute}
    {o : OpenOutcome} (hcall : k.call = some (.registered r attr))
    (hfresh : ∀ x ∈ s.returned, x.2 ≠ o.fd) (hunused : ¬ k.thread.Uses o.fd)
    (hopened : s'.opened = s.openedBy o r)
    (hthread : k'.thread = (k.thread.event_open g attr o).2)
    (hcall' : ∀ f, k'.call = some f → (k.thread.event_open g attr o).1 = .ok () ∧
      ∃ fds, f = .enabling r o.fd fds ∧ o.fd ∈ fds) : s'.TaskOn pfm k' := by
  have hring : o.fd ∉ k.thread.ring_buffers_ := fun hmem => hunused (Or.inl hmem)
  have hkeeps : ∀ fd, fd ≠ o.fd → k.thread.Keeps k'.thread fd := by
    intro fd hfd
    rw [hthread]
    exact Thread.keeps_event_open hring hfd
  have hself : ∀ ev, k'.thread.events o.fd = some ev → 0 ≤ o.fd ∧ ev = o.event attr := by
    intro ev hev
    rw [hthread] at hev
    by_cases hnonneg : 0 ≤ o.fd
    · rw [Thread.events_event_open_self hring hnonneg] at hev
      exact ⟨hnonneg, (Option.some.inj hev).symm⟩
    · rw [Thread.event_open_of_neg (not_le.mp hnonneg)] at hev
      exact absurd (Thread.uses_of_event hev) hunused
  refine ⟨fun f hf => ?_, fun fd ev' hev' => ?_, fun r' fd fds hk => ?_, fun x hx => ?_⟩
  · obtain ⟨-, fds, rfl, -⟩ := hcall' f hf
    trivial
  · by_cases hfd : fd = o.fd
    · subst hfd
      obtain ⟨hnonneg, rfl⟩ := hself ev' hev'
      refine ⟨r, ?_, h.call _ hcall⟩
      rw [hopened, Process.openedBy, if_pos hnonneg, Function.update_self]
    · obtain ⟨ev, hev, hattr, -⟩ := (hkeeps fd hfd).configured ev' hev'
      obtain ⟨r', hr', hencode⟩ := h.attr fd ev hev
      exact ⟨r', hext.opened fd r' hr', hattr ▸ hencode⟩
  · obtain ⟨hopen, fds', heq, hmem⟩ := hcall' _ hk
    cases heq
    obtain ⟨hnotifies, -, hnonneg⟩ := Thread.notifies_of_event_open hopen
    refine ⟨?_, fun ev hev => ?_, Or.inl hmem⟩
    · rw [hthread, Thread.events_event_open_self hring hnonneg]
      exact Option.some_ne_none _
    · obtain ⟨-, rfl⟩ := hself ev hev
      exact hnotifies
  · rw [hreturned] at hx
    obtain ⟨hsends, hon⟩ := h.returned x hx
    have hkept := hkeeps x.2 (hfresh x hx)
    exact ⟨hkept.sends hsends, hkept.on hon⟩

/-- The call of a thread returns. -/
theorem of_returned (h : s.TaskOn pfm k) (hext : s.Extends s') {r : Registration} {fd : Fd}
    (hreturned : s'.returned = s.returned ++ [(r, fd)]) (hthread : k'.thread = k.thread)
    (hcall : ∀ f, k'.call = some f → k.call = some f)
    (hlast : k.thread.Sends fd ∧ k.thread.On fd) : s'.TaskOn pfm k' where
  call f hf := h.call f (hcall f hf)
  attr y ev hev := by
    obtain ⟨r', hr', hencode⟩ := h.attr y ev (hthread ▸ hev)
    exact ⟨r', hext.opened y r' hr', hencode⟩
  enabling r' y fds hk := by
    rw [hthread]
    exact h.enabling r' y fds (hcall _ hk)
  returned x hx := by
    rw [hthread]
    rcases List.mem_append.mp (hreturned ▸ hx) with hx | hx
    · exact h.returned x hx
    · cases List.mem_singleton.mp hx
      exact hlast

end Process.TaskOn

theorem Process.TaskOn.step (h : ∀ t k, s.threads t = some k → s.TaskOn pfm k)
    (hregistry : s.Registry) (howned : s.Owned) (hopens : s.Opens)
    (hstep : Process.Step g pfm s e s') : ∀ t k, s'.threads t = some k → s'.TaskOn pfm k := by
  have hext := hstep.extends
  have hrefl : ∀ th : Thread, ∀ fd, th.Keeps th fd := fun th fd => .of_eq rfl rfl
  have hother : s'.returned = s.returned → ∀ t k, s.threads t = some k → s'.TaskOn pfm k :=
    fun hsame t k hk => (h t k hk).of_call hext hsame (hrefl k.thread) rfl
  have hfresh : ∀ o : OpenOutcome, s.opened o.fd = none → ∀ x ∈ s.returned, x.2 ≠ o.fd := by
    intro o hnone x hx heq
    have hopened := hopens.returned x hx
    rw [heq, hnone] at hopened
    cases hopened
  cases hstep with
  | start blocked => exact Process.forall_set (hother rfl) (.new pfm _ blocked)
  | exit => exact Process.forall_erase (hother rfl)
  | refused => exact hother rfl
  | @called t k metric event attr hk hhandler hcall hencode =>
      refine Process.forall_set (hother rfl) ((h t k hk).of_keeps hext rfl (hrefl k.thread) ?_ ?_)
      · intro f hf
        cases hf
        exact hencode
      · exact fun r fd fds hk' => (by cases hk')
  | @known t k metric event attr hk hhandler hcall =>
      refine Process.forall_set (hother rfl) ((h t k hk).of_keeps hext rfl (hrefl k.thread) ?_ ?_)
      · intro f hf
        cases hf
        exact (h t k hk).call (.encoded metric event attr) hcall
      · exact fun r fd fds hk' => (by cases hk')
  | @added t k metric event attr hk hhandler hcall =>
      refine Process.forall_set (hother rfl) ((h t k hk).of_keeps hext rfl
        (fun fd => .of_eq rfl rfl) ?_ ?_)
      · intro f hf
        cases hf
        exact (h t k hk).call (.encoded metric event attr) hcall
      · exact fun r fd fds hk' => (by cases hk')
  | @failed t k r attr o _ hk hhandler hcall hnone =>
      exact Process.forall_set (hother rfl) ((h t k hk).of_event_open hext rfl hcall
        (hfresh o hnone) (howned.not_uses hk hnone) rfl rfl fun f hf => (by cases hf))
  | @opened t k r attr o hk hhandler hcall hnone hopen =>
      refine Process.forall_set (hother rfl) ((h t k hk).of_event_open hext rfl hcall
        (hfresh o hnone) (howned.not_uses hk hnone) rfl rfl fun f hf => ?_)
      cases hf
      have hring : o.fd ∉ k.thread.ring_buffers_ :=
        fun hmem => howned.not_uses hk hnone (Or.inl hmem)
      refine ⟨hopen, _, rfl, (List.mem_insertionSort _).mpr (AList.mem_keys.mp ?_)⟩
      exact (Thread.mem_rings_event_open hring _).mpr
        (Or.inr ⟨(Thread.notifies_of_event_open hopen).2.1, rfl⟩)
  | @enabled t k r fd y fds hk hhandler hcall =>
      obtain ⟨hthere, hsends, hon⟩ := (h t k hk).enabling r fd _ hcall
      refine Process.forall_set (hother rfl) ((h t k hk).of_keeps hext rfl
        (fun x => k.thread.keeps_enable_fd y x) (fun f hf => ?_) fun r' fd' fds' hk' => ?_)
      · cases hf
        trivial
      · cases hk'
        refine ⟨hthere, hsends, ?_⟩
        rcases hon with hmem | hon
        · rcases List.mem_cons.mp hmem with rfl | hmem
          · exact Or.inr fun ev hev => Or.inl (Thread.enabled_enable_fd hev)
          · exact Or.inl hmem
        · exact Or.inr ((k.thread.keeps_enable_fd y fd).on hon)
  | @returned t k r fd hk hhandler hcall =>
      obtain ⟨-, hsends, hon⟩ := (h t k hk).enabling r fd _ hcall
      have hlast := hon.resolve_left List.not_mem_nil
      have hopened : s.CallOpens k.call := hopens.calls t k hk
      have hmine : s.CallOk t k.call := hregistry.calls t k hk
      rw [hcall] at hopened hmine
      refine Process.forall_set (fun u j hj => ?_) ((h t k hk).of_returned hext rfl rfl
        (fun f hf => (by cases hf)) ⟨hsends, hlast⟩)
      by_cases hut : u = t
      · subst hut
        cases hk.symm.trans hj
        exact (h u k hj).of_returned hext rfl rfl (fun f hf => hf) ⟨hsends, hlast⟩
      · -- the other threads do not have the event
        have hnone : ∀ ev, j.thread.events fd ≠ some ev := by
          intro ev hev
          obtain ⟨r', hr', htid⟩ := howned.uses u j hj fd (Thread.uses_of_event hev)
          cases hopened.symm.trans hr'
          exact hut (htid.symm.trans hmine.1)
        exact (h u j hj).of_returned hext rfl rfl (fun f hf => hf)
          ⟨fun ev hev => absurd hev (hnone ev), fun ev hev => absurd hev (hnone ev)⟩
  | @stopped t k hk hhandler hcall =>
      exact Process.forall_set (hother rfl) ((h t k hk).of_call hext rfl
        (fun fd => .of_eq rfl rfl) rfl)
  | @sampled t k f x hk hnext =>
      exact Process.forall_set (hother rfl) ((h t k hk).of_call hext rfl
        (fun fd => Thread.keeps_next (x := ⟨k.thread, s.plugin.heap⟩) hnext) rfl)

theorem Process.TaskOn.of_exec {es : List ProcessEvent}
    (hrun : (processMachine g pfm T).exec (.init T) es = some s) :
    ∀ t k, s.threads t = some k → s.TaskOn pfm k :=
  (processMachine g pfm T).exec_past
    (I := fun _ s => ∀ t k, s.threads t = some k → s.TaskOn pfm k)
    (fun _ _ hk => by cases hk)
    (fun _ _ _ _ hrun h hnext => Process.TaskOn.step h (.of_exec hrun) (.of_exec hrun)
      (.of_exec hrun) (Process.step_of_next hnext)) hrun

/-! ### Until the thread exits -/

/-- A thread that runs is there until it exits. -/
theorem Process.Step.remains (h : Process.Step g pfm s e s') {t : ThreadId}
    (he : e ≠ .exit t) (ht : s.threads t ≠ none) : s'.threads t ≠ none := by
  have hset : ∀ (s₁ : Process T) u k, s₁.threads = s.threads → (s₁.set u k).threads t ≠ none := by
    intro s₁ u k hsame
    by_cases htu : t = u
    · subst htu
      rw [Process.set_threads_self]
      exact Option.some_ne_none k
    · rw [Process.set_threads_ne _ _ htu, hsame]
      exact ht
  cases h with
  | @exit u k hk =>
      have htu : t ≠ u := fun heq => he (heq ▸ rfl)
      rw [Process.erase_threads_ne _ htu]
      exact ht
  | refused => exact ht
  | _ => exact hset _ _ _ rfl

/-- The thread runs, and has the event. -/
def Process.Has (s : Process T) (t : ThreadId) (fd : Fd) : Prop :=
  ∃ k, s.threads t = some k ∧ k.thread.events fd ≠ none

/-- It has it until it exits. -/
theorem Process.Has.step {t : ThreadId} {fd : Fd} (h : s.Has t fd) (howned : s.Owned)
    (hstep : Process.Step g pfm s e s') (he : e ≠ .exit t) : s'.Has t fd := by
  obtain ⟨k, hk, hevent⟩ := h
  obtain ⟨k', hk'⟩ := Option.ne_none_iff_exists'.mp
    (hstep.remains he (hk ▸ Option.some_ne_none k))
  refine ⟨k', hk', ?_⟩
  obtain ⟨hnone, -⟩ | ⟨k₀, hk₀, hmoves⟩ := hstep.came t k' hk'
  · cases hk.symm.trans hnone
  cases hk.symm.trans hk₀
  generalize k'.thread = th at hmoves
  cases hmoves with
  | stays => exact hevent
  | buffer => exact hevent
  | @event_open _ r attr o _ _ hfresh =>
      have hunused := howned.not_uses hk hfresh
      have hfd : fd ≠ o.fd := fun heq => hunused (heq ▸ Or.inr (Or.inl hevent))
      exact (Thread.keeps_event_open (fun hmem => hunused (Or.inl hmem)) hfd).there hevent
  | enable_fd _ _ x => exact (k.thread.keeps_enable_fd x fd).there hevent
  | disable => exact hevent
  | sampled _ hnext =>
      exact (Thread.keeps_next (x := ⟨k.thread, s.plugin.heap⟩) hnext).there hevent

theorem Process.Has.exec {t : ThreadId} {fd : Fd} :
    ∀ {fs : List ProcessEvent} {s s' : Process T},
      (∃ es, (processMachine g pfm T).exec (.init T) es = some s) → s.Has t fd →
      .exit t ∉ fs → (processMachine g pfm T).exec s fs = some s' → s'.Has t fd := by
  intro fs
  induction fs with
  | nil =>
      intro s s' _ h _ hrun
      cases hrun
      exact h
  | cons e fs ih =>
      rintro s s' ⟨es, hrun⟩ h hexit hlater
      obtain ⟨s₁, hnext, hrest⟩ := (Machine.exec_cons_eq_some _).mp hlater
      rw [List.mem_cons, not_or] at hexit
      refine ih ⟨es ++ [e], (Machine.exec_concat_eq_some _).mpr ⟨s, hrun, hnext⟩⟩ ?_ hexit.2 hrest
      exact h.step (.of_exec hrun) (Process.step_of_next hnext) fun heq => hexit.1 heq.symm

/-- The event of a call that returns is there. -/
theorem Process.has_of_returned {t : ThreadId} {r : Registration} {fd : Fd}
    (h : ∀ t k, s.threads t = some k → s.TaskOn pfm k)
    (hnext : (processMachine g pfm T).next s (.enable t) = some s')
    (hr : s'.returned = s.returned ++ [(r, fd)]) : s'.Has t fd := by
  cases Process.step_of_next hnext with
  | enabled =>
      have hsame : s.returned = s.returned ++ [(r, fd)] := hr
      simp at hsame
  | @returned _ k r' fd' hk _ hcall =>
      cases List.append_cancel_left hr
      exact ⟨_, Process.set_threads_self _ t _, ((h t k hk).enabling r fd [] hcall).1⟩

/-- An event that is enabled can take a sample at any time. -/
theorem Process.sample_of_enabled {t : ThreadId} {k : Task} {fd : Fd} {ev : PerfEvent}
    (hk : s.threads t = some k) (hev : k.thread.events fd = some ev) (henabled : ev.enabled = true)
    (e : SamplingEvent) :
    ∃ s', (processMachine g pfm T).next s (.sampling t (.sample fd e)) = some s' := by
  have hproduce : (k.thread.produce g fd e.record).isSome = true := by
    rw [Thread.produce, hev]
    simp only [henabled, if_true]
    split
    case h_1 => rfl
    case h_2 => rfl
  obtain ⟨p, hp⟩ := Option.isSome_iff_exists.mp hproduce
  apply Option.isSome_iff_exists.mp
  simp [processMachine, Process.sampling, samplerMachine, Thread.sample, hk, hp]

/-- **A metric stays sampled.**  From the return of `add_metric` until the thread exits, whatever
the other threads and the handlers do, the event that the call has opened has the attributes of
its metric and sends its signals; and it is enabled, so that it can take its next sample (one
that a full ring drops is a sample, too), unless its own handler is between `disable (fd)` and
`enable (fd)`. -/
theorem stays_enabled {es fs : List ProcessEvent} {s₁ : Process T} {t : ThreadId}
    {r : Registration} {fd : Fd} (hrun : (processMachine g pfm T).exec (.init T) es = some s)
    (hnext : (processMachine g pfm T).next s (.enable t) = some s₁)
    (hr : s₁.returned = s.returned ++ [(r, fd)])
    (hlater : (processMachine g pfm T).exec s₁ fs = some s') (hexit : .exit t ∉ fs) :
    ∃ k ev, s'.threads t = some k ∧ k.thread.events fd = some ev ∧
      encode pfm r.metric = .ok (r.event, ev.attr) ∧ ev.notifies = true ∧
      (k.thread.handler = some (fd, .draining) ∨ k.thread.handler = some (fd, .drained) ∨
        ∀ e, ∃ s'', (processMachine g pfm T).next s' (.sampling t (.sample fd e)) = some s'') := by
  have hrun₁ : (processMachine g pfm T).exec (.init T) (es ++ [.enable t]) = some s₁ :=
    (Machine.exec_concat_eq_some _).mpr ⟨s, hrun, hnext⟩
  have hrun' : (processMachine g pfm T).exec (.init T) (es ++ [.enable t] ++ fs) = some s' :=
    (Machine.exec_append_eq_some _).mpr ⟨s₁, hrun₁, hlater⟩
  have hhas := Process.has_of_returned (.of_exec hrun) hnext hr
  obtain ⟨k, hk, hevent⟩ := Process.Has.exec ⟨_, hrun₁⟩ hhas hexit hlater
  obtain ⟨ev, hev⟩ := Option.ne_none_iff_exists'.mp hevent
  have hmem : (r, fd) ∈ s'.returned := by
    refine (Process.exec_extends hlater).returned.subset ?_
    rw [hr]
    exact List.mem_append_right _ (List.mem_singleton_self _)
  have htask := Process.TaskOn.of_exec hrun' t k hk
  obtain ⟨hsends, hon⟩ := htask.returned _ hmem
  obtain ⟨r', hr', hencode⟩ := htask.attr fd ev hev
  have hopened : s'.opened fd = some r := (Process.Opens.of_exec hrun').returned _ hmem
  cases hopened.symm.trans hr'
  refine ⟨k, ev, hk, hev, hencode, hsends ev hev, ?_⟩
  rcases hon ev hev with henabled | hdraining | hdrained
  · exact Or.inr (Or.inr fun e => Process.sample_of_enabled hk hev henabled e)
  · exact Or.inl hdraining
  · exact Or.inr (Or.inl hdrained)

/-- A thread adds its first metric, up to the return of the call. -/
def firstMetric : List ProcessEvent :=
  [.start ⟨1⟩ false, .call ⟨1⟩ "Load@1000".toList, .register ⟨1⟩,
    .event_open ⟨1⟩ (.success 3 fun _ => 0), .enable ⟨1⟩]

set_option maxRecDepth 10000 in
/-- A sample is recorded after `add_metric` has returned, and another one may come. -/
theorem stays_enabled_after_sample :
    ∃ (s s₁ s' : Process .perf) (r : Registration) (k : Task) (ev : PerfEvent),
      (processMachine .x86 .intel .perf).exec (.init .perf) firstMetric = some s ∧
      (processMachine .x86 .intel .perf).next s (.enable ⟨1⟩) = some s₁ ∧
      s₁.returned = [(r, 3)] ∧
      (processMachine .x86 .intel .perf).exec s₁ (sampleSteps ⟨1⟩ 3 aLoad) = some s' ∧
      s'.threads ⟨1⟩ = some k ∧ k.thread.events 3 = some ev ∧
      encode .intel r.metric = .ok (r.event, ev.attr) ∧
      ∀ e, ∃ s'', (processMachine .x86 .intel .perf).next s' (.sampling ⟨1⟩ (.sample 3 e))
        = some s'' := by
  have hlast : ((processMachine .x86 .intel .perf).exec (.init .perf) firstMetric).bind
      (fun s => ((processMachine .x86 .intel .perf).next s (.enable ⟨1⟩)).bind fun s₁ =>
        ((processMachine .x86 .intel .perf).exec s₁ (sampleSteps ⟨1⟩ 3 aLoad)).bind fun s' =>
          (s'.threads ⟨1⟩).map fun k =>
            (s.returned.length, s₁.returned.map Prod.snd, k.thread.handler))
        = some (0, [3], none) := by
    decide +kernel
  obtain ⟨s, hrun, hlast⟩ := Option.bind_eq_some_iff.mp hlast
  obtain ⟨s₁, hnext, hlast⟩ := Option.bind_eq_some_iff.mp hlast
  obtain ⟨s', hlater, hlast⟩ := Option.bind_eq_some_iff.mp hlast
  obtain ⟨k, hk, hlast⟩ := Option.map_eq_some_iff.mp hlast
  simp only [Prod.mk.injEq] at hlast
  obtain ⟨hbefore, hreturned, hhandler⟩ := hlast
  obtain ⟨⟨r, fd⟩, hr, rfl⟩ := List.map_eq_singleton_iff.mp hreturned
  have hr' : s₁.returned = s.returned ++ [(r, 3)] := by
    rw [List.length_eq_zero_iff.mp hbefore]
    exact hr
  obtain ⟨k', ev, hk', hev, hencode, -, hon⟩ :=
    stays_enabled hrun hnext hr' hlater (by simp [sampleSteps])
  cases hk.symm.trans hk'
  refine ⟨s, s₁, s', r, k, ev, hrun, hnext, hr, hlater, hk, hev, hencode, ?_⟩
  rcases hon with hdraining | hdrained | hsample
  · cases hhandler.symm.trans hdraining
  · cases hhandler.symm.trans hdrained
  · exact hsample

end AccessSampling
