import AccessSampling.Registry

/-!
# Every thread records into its own buffer

`add_metric` gives a thread its buffer when the thread id is new to
`thread_event_buffers_`.  The map outlives the threads, and the system may use the id of
an exited thread again: a thread with such an id finds it in the map, is given no
buffer, and its handler drops what it drains.

* `Thread.Uses` — the descriptors a thread has to do with, all of them its own.
* `Process.Recording` — the invariant: a buffer holds what was drained from the events
  of its thread.
* `records_into_own_buffer` — it holds in every run in which no thread registers its
  first metric under an id that is in the map, and `no_buffer_of_known_id` says what such
  a thread comes to.
* `ownId_of_freshId` — so it holds when the system uses no thread id again.

`OwnId` is the weaker of the two conditions, as it only asks about the step in which a thread
registers its *first* metric: a thread id may be used again by threads that add no
metrics, and one thread may add as many as it likes.  It is about the state in which the
step is taken, and can be checked along a run (`Machine.Along`).
-/

namespace AccessSampling

open Foundation

/-! ### Descriptors -/

/-- The thread has the ring or the event of `fd`, or a signal of it. -/
def Thread.Uses (th : Thread) (fd : Fd) : Prop :=
  fd ∈ th.ring_buffers_ ∨ th.events fd ≠ none ∨ th.pending = some fd ∨
    ∃ ph, th.handler = some (fd, ph)

section Uses

variable {T : TraceEvents} {g : Geometry} {s s' : Sampler T} {th th' : Thread} {fd : Fd}

theorem Thread.uses_of_event {ev : PerfEvent} (h : th.events fd = some ev) : th.Uses fd :=
  Or.inr (Or.inl (h ▸ Option.some_ne_none ev))

theorem Thread.not_uses_new (blocked : Bool) :
    ¬ Thread.Uses { Thread.new with blocked := blocked } fd := by
  rintro (h | h | h | ⟨ph, h⟩)
  · exact AList.notMem_empty fd h
  · exact h rfl
  · cases h
  · cases h

/-- Changing an event brings no descriptor. -/
theorem Thread.Uses.of_modify {x : Fd} {f : PerfEvent → PerfEvent}
    (h : (th.modify x f).Uses fd) : th.Uses fd := by
  rcases h with h | h | h | h
  · exact Or.inl h
  · refine Or.inr (Or.inl fun hnone => h ?_)
    by_cases hx : fd = x
    · subst hx
      rw [events_modify_self, hnone]
      rfl
    · rw [events_modify_ne _ _ _ hx, hnone]
  · exact Or.inr (Or.inr (Or.inl h))
  · exact Or.inr (Or.inr (Or.inr h))

/-- A round of the loop is a call of `read`, as far as the thread is concerned. -/
theorem Sampler.processNext_thread {now : UInt64} {x : Fd} {more : Bool}
    (h : s.processNext g now x = some (more, s')) :
    x ∈ s.thread.ring_buffers_ ∧ ∃ rb m, s'.thread = s.thread.afterRead x rb m := by
  obtain ⟨rb, hrb, h⟩ := Option.bind_eq_some_iff.mp h
  obtain ⟨m, -, h⟩ := Option.bind_eq_some_iff.mp h
  obtain ⟨res, -, h⟩ := Option.bind_eq_some_iff.mp h
  refine ⟨AList.lookup_isSome.mp (Option.isSome_of_eq_some hrb), res.buffer, res.mmap, ?_⟩
  split at h
  case h_1 =>
    cases h
    rfl
  case h_2 =>
    obtain ⟨access, -, h⟩ := Option.map_eq_some_iff.mp h
    cases access with
    | none =>
        cases h
        rfl
    | some event =>
        cases h
        rfl

/-- A round of the loop brings no descriptor. -/
theorem Sampler.processNext_uses {now : UInt64} {x : Fd} {more : Bool}
    (h : s.processNext g now x = some (more, s')) (huses : s'.thread.Uses fd) :
    s.thread.Uses fd := by
  obtain ⟨hx, rb, m, hthread⟩ := Sampler.processNext_thread h
  rw [hthread] at huses
  rcases huses with hring | huses
  · rcases (AList.mem_insert _).mp hring with rfl | hring
    · exact Or.inl hx
    · exact Or.inl hring
  · exact Thread.Uses.of_modify (Or.inr huses)

/-- **Samples, signals and handlers bring no descriptor.** -/
theorem Sampler.uses_of_next {e : SamplerEvent} (h : (samplerMachine g T).next s e = some s')
    (huses : s'.thread.Uses fd) : s.thread.Uses fd := by
  have hhandler : ∀ {th : Thread} {x : Fd} {ph : Phase} {k : Option (Fd × Phase)},
      s.thread.handler = some (x, ph) → ((∃ ph', k = some (x, ph')) ∨ k = none) →
      (∀ y, th.Uses y → s.thread.Uses y) → Thread.Uses { th with handler := k } fd →
      s.thread.Uses fd := by
    intro th x ph k hph hk hother huses
    rcases huses with hring | hevent | hpending | ⟨ph'', hrun⟩
    · exact hother fd (Or.inl hring)
    · exact hother fd (Or.inr (Or.inl hevent))
    · exact hother fd (Or.inr (Or.inr (Or.inl hpending)))
    · rcases hk with ⟨ph', rfl⟩ | rfl
      · cases hrun
        exact Or.inr (Or.inr (Or.inr ⟨ph, hph⟩))
      · cases hrun
  cases e with
  | sample x e =>
      obtain ⟨th, hsample, rfl⟩ := Option.map_eq_some_iff.mp h
      obtain ⟨ev, hev, -, rfl | ⟨ev', -, -, rfl⟩⟩ := Thread.sample_cases hsample
      · exact huses
      · split at huses
        case isTrue =>
          rcases huses with hring | hevent | hpending | hrun
          · exact Or.inl hring
          · exact Thread.Uses.of_modify (Or.inr (Or.inl hevent))
          · -- the signal is pending already, or it is that of the sample
            rcases Thread.notify_cases hpending with hold | rfl
            · exact Or.inr (Or.inr (Or.inl hold))
            · exact Thread.uses_of_event hev
          · exact Or.inr (Or.inr (Or.inr hrun))
        case isFalse => exact huses.of_modify
  | deliver =>
      obtain ⟨th, hdeliver, rfl⟩ := Option.map_eq_some_iff.mp h
      obtain ⟨x, hpending, -, -, rfl⟩ := Thread.deliver_cases hdeliver
      rcases huses with hring | hevent | hnone | ⟨ph, hrun⟩
      · exact Or.inl hring
      · exact Or.inr (Or.inl hevent)
      · cases hnone
      · cases hrun
        exact Or.inr (Or.inr (Or.inl hpending))
  | handle now =>
      obtain ⟨x, ph, hph, hcase⟩ := Sampler.handle_cases h
      cases ph with
      | entered =>
          subst hcase
          exact hhandler hph (Or.inl ⟨_, rfl⟩) (fun y => Thread.Uses.of_modify) huses
      | draining =>
          obtain ⟨more, s₁, hnext, rfl⟩ := hcase
          cases more with
          | true => exact Sampler.processNext_uses hnext huses
          | false =>
              exact hhandler hph (Or.inl ⟨_, rfl⟩) (fun y => Sampler.processNext_uses hnext) huses
      | drained =>
          subst hcase
          exact hhandler hph (Or.inl ⟨_, rfl⟩) (fun y => Thread.Uses.of_modify) huses
      | enabled =>
          subst hcase
          exact hhandler hph (Or.inr rfl) (fun y => id) huses

/-- `event_open` brings the descriptor it has been given. -/
theorem Thread.uses_event_open {attr : PerfEventAttribute} {o : OpenOutcome}
    (hfresh : o.fd ∉ th.ring_buffers_) (h : (th.event_open g attr o).2.Uses fd) :
    th.Uses fd ∨ 0 ≤ o.fd ∧ fd = o.fd := by
  rw [Thread.event_open_thread hfresh] at h
  have hnonneg : o.mapped = true → 0 ≤ o.fd := by
    intro hmapped
    simp only [OpenOutcome.mapped, Bool.and_eq_true, decide_eq_true_eq] at hmapped
    exact le_trans (by decide) hmapped.1
  rcases h with hring | hevent | h | h
  · by_cases hmapped : o.mapped = true
    · simp only [hmapped, if_true, AList.mem_insert] at hring
      rcases hring with rfl | hring
      · exact Or.inr ⟨hnonneg hmapped, rfl⟩
      · exact Or.inl (Or.inl hring)
    · simp only [hmapped] at hring
      exact Or.inl (Or.inl hring)
  · by_cases hfd : fd = o.fd
    · by_cases hneg : 0 ≤ o.fd
      · exact Or.inr ⟨hneg, hfd⟩
      · simp only [hneg, if_false] at hevent
        exact Or.inl (Or.inr (Or.inl hevent))
    · refine Or.inl (Or.inr (Or.inl fun hnone => hevent ?_))
      show (if 0 ≤ o.fd then Function.update th.events o.fd (some (o.event attr))
        else th.events) fd = none
      split
      case isTrue => rw [Function.update_of_ne hfd, hnone]
      case isFalse => exact hnone
  · exact Or.inl (Or.inr (Or.inr (Or.inl h)))
  · exact Or.inl (Or.inr (Or.inr (Or.inr h)))

end Uses

section Recording

variable {T : TraceEvents}

/-! ### The invariant -/

/-- The call has registered its metric. -/
def Frame.Registered : Frame → Prop
  | .encoded _ _ _ => False
  | .registered _ _ | .enabling _ _ _ => True

/-- The thread has registered a metric. -/
def Task.Registered (k : Task) : Prop :=
  k.completed = true ∨ (∃ f, k.call = some f ∧ f.Registered) ∨ ∃ fd, k.thread.Uses fd

/-- The samples that were drained from the events of a thread. -/
def Process.drainedOf (s : Process T) (t : ThreadId) : List (Entry T) :=
  s.drained.filter fun x => (s.opened x.fd).any fun r => r.tid = t

/-- A thread that has registered a metric has the buffer of its thread id, and its
descriptors are its own. -/
structure Process.TaskOk (s : Process T) (t : ThreadId) (k : Task) : Prop where
  buffer : ∀ p, k.thread.event_data_ = some p →
    s.plugin.thread_event_buffers_.lookup t = some (some p)
  registered : k.Registered → k.thread.event_data_ ≠ none
  uses : ∀ fd, k.thread.Uses fd → ∃ r, s.opened fd = some r ∧ r.tid = t

/-- **The invariant of recording.** -/
structure Process.Recording (s : Process T) : Prop where
  registry : s.Registry
  tasks : ∀ t k, s.threads t = some k → s.TaskOk t k
  owner : ∀ fd r, s.opened fd = some r → r.tid ∈ s.plugin.thread_event_buffers_
  opened : ∀ x ∈ s.drained, s.opened x.fd ≠ none
  buffers : ∀ t p, s.plugin.thread_event_buffers_.lookup t = some (some p) →
    s.plugin.heap p = s.drainedOf t
  unused : ∀ p, s.plugin.allocated ≤ p → s.plugin.heap p = []

/-- A thread that registers its first metric has an id that is not in the map. -/
def OwnId (s : Process T) : ProcessEvent → Prop
  | .register t => ∀ k, s.threads t = some k → k.thread.event_data_ = none →
      t ∉ s.plugin.thread_event_buffers_
  | _ => True

instance (s : Process T) (e : ProcessEvent) : Decidable (OwnId s e) :=
  match e with
  | .register t => inferInstanceAs (Decidable (∀ k ∈ s.threads t,
      k.thread.event_data_ = none → t ∉ s.plugin.thread_event_buffers_))
  | .start _ _ | .exit _ | .call _ _ | .event_open _ _ | .enable _ | .stop _
  | .sampling _ _ => isTrue trivial

section Steps

variable {g : Geometry} {pfm : Pfm} {s s' : Process T} {e : ProcessEvent}

theorem Process.TaskOk.of_extends {t : ThreadId} {k : Task} (h : s.TaskOk t k)
    (hext : s.Extends s') : s'.TaskOk t k where
  buffer p hp := hext.buffers t _ (h.buffer p hp)
  registered := h.registered
  uses fd hfd := by
    obtain ⟨r, hr, htid⟩ := h.uses fd hfd
    exact ⟨r, hext.opened fd r hr, htid⟩

/-- A step of the thread's own that brings no descriptor. -/
theorem Process.TaskOk.of_same {t : ThreadId} {k k' : Task} (h : s.TaskOk t k)
    (hdata : k'.thread.event_data_ = k.thread.event_data_)
    (huses : ∀ fd, k'.thread.Uses fd → k.thread.Uses fd)
    (hregistered : k'.Registered → k.Registered) : s.TaskOk t k' where
  buffer p hp := h.buffer p (hdata ▸ hp)
  registered hk := hdata ▸ h.registered (hregistered hk)
  uses fd hfd := h.uses fd (huses fd hfd)

/-- What is known of a drained sample's event is known for good. -/
theorem Process.drainedOf_congr (hopened : ∀ x ∈ s.drained, s.opened x.fd ≠ none)
    (hext : s.Extends s') (hdrained : s'.drained = s.drained) (t : ThreadId) :
    s'.drainedOf t = s.drainedOf t := by
  rw [drainedOf, drainedOf, hdrained]
  refine List.filter_congr fun x hx => ?_
  obtain ⟨r, hr⟩ := Option.ne_none_iff_exists'.mp (hopened x hx)
  rw [hr, hext.opened x.fd r hr]

namespace Process.Recording

theorem init (T : TraceEvents) : (Process.init T).Recording where
  registry := .init T
  tasks t k hk := by cases hk
  owner fd r hr := by cases hr
  opened x hx := by cases hx
  buffers t p hp := by cases hp
  unused p _ := rfl

/-- A step that touches no buffer and no descriptor. -/
theorem of_same (h : s.Recording) (hregistry : s'.Registry) (hext : s.Extends s')
    (hbuffers : s'.plugin.thread_event_buffers_ = s.plugin.thread_event_buffers_)
    (hheap : s'.plugin.heap = s.plugin.heap)
    (hallocated : s'.plugin.allocated = s.plugin.allocated) (hopened : s'.opened = s.opened)
    (hdrained : s'.drained = s.drained)
    (htasks : ∀ t k, s'.threads t = some k → s.TaskOk t k) : s'.Recording where
  registry := hregistry
  tasks t k hk := (htasks t k hk).of_extends hext
  owner := by
    rw [hopened, hbuffers]
    exact h.owner
  opened := by
    rw [hopened, hdrained]
    exact h.opened
  buffers t p hp := by
    rw [hheap, drainedOf_congr h.opened hext hdrained]
    exact h.buffers t p (hbuffers ▸ hp)
  unused := by
    rw [hheap, hallocated]
    exact h.unused

/-- **A thread id gets its buffer**, which is empty, and nothing has been drained for it. -/
theorem of_added (h : s.Recording) (hregistry : s'.Registry) (hext : s.Extends s')
    {t : ThreadId} {k' : Task} (hmem : t ∉ s.plugin.thread_event_buffers_)
    (hbuffers : s'.plugin.thread_event_buffers_
      = s.plugin.thread_event_buffers_.insert t (some s.plugin.allocated))
    (hheap : s'.plugin.heap = s.plugin.heap)
    (hallocated : s'.plugin.allocated = s.plugin.allocated + 1)
    (hopened : s'.opened = s.opened) (hdrained : s'.drained = s.drained)
    (hthreads : s'.threads = Function.update s.threads t (some k'))
    (hdata : k'.thread.event_data_ = some s.plugin.allocated)
    (huses : ∀ fd, k'.thread.Uses fd → ∃ r, s.opened fd = some r ∧ r.tid = t) :
    s'.Recording where
  registry := hregistry
  tasks u j hu := by
    rw [hthreads] at hu
    by_cases hut : u = t
    · subst hut
      rw [Function.update_self] at hu
      cases hu
      refine ⟨fun p hp => ?_, fun _ => ?_, fun fd hfd => ?_⟩
      · rw [hdata] at hp
        cases hp
        rw [hbuffers, AList.lookup_insert]
      · rw [hdata]
        exact Option.some_ne_none _
      · obtain ⟨r, hr, htid⟩ := huses fd hfd
        exact ⟨r, hext.opened fd r hr, htid⟩
    · rw [Function.update_of_ne hut] at hu
      exact (h.tasks u j hu).of_extends hext
  owner fd r hr := by
    rw [hbuffers, AList.mem_insert]
    exact Or.inr (h.owner fd r (hopened ▸ hr))
  opened := by
    rw [hopened, hdrained]
    exact h.opened
  buffers u p hp := by
    rw [hheap, drainedOf_congr h.opened hext hdrained]
    rw [hbuffers] at hp
    rcases lookup_insert_cases hp with ⟨rfl, hnew⟩ | ⟨-, hold⟩
    · cases hnew
      rw [h.unused _ le_rfl, drainedOf, eq_comm, List.filter_eq_nil_iff]
      intro x hx hany
      obtain ⟨r, hr, htid⟩ := (Option.any_eq_true _ _).mp hany
      exact hmem (of_decide_eq_true htid ▸ h.owner x.fd r hr)
    · exact h.buffers u p hold
  unused p hp := by
    rw [hheap]
    exact h.unused p (by omega)

/-- **A descriptor is opened**, by a thread that has a buffer. -/
theorem of_opened (h : s.Recording) (hregistry : s'.Registry) (hext : s.Extends s')
    {o : OpenOutcome} {r : Registration} (hplugin : s'.plugin = s.plugin)
    (hopened : s'.opened = s.openedBy o r) (hdrained : s'.drained = s.drained)
    (hmem : r.tid ∈ s.plugin.thread_event_buffers_)
    (htasks : ∀ t k, s'.threads t = some k → s'.TaskOk t k) : s'.Recording where
  registry := hregistry
  tasks := htasks
  owner fd r' hr' := by
    rw [hplugin]
    rw [hopened, Process.openedBy] at hr'
    split at hr'
    case isTrue =>
      by_cases hfd : fd = o.fd
      · rw [hfd, Function.update_self] at hr'
        cases hr'
        exact hmem
      · rw [Function.update_of_ne hfd] at hr'
        exact h.owner fd r' hr'
    case isFalse => exact h.owner fd r' hr'
  opened x hx := by
    obtain ⟨r', hr'⟩ := Option.ne_none_iff_exists'.mp (h.opened x (hdrained ▸ hx))
    rw [hext.opened x.fd r' hr']
    exact Option.some_ne_none r'
  buffers t p hp := by
    rw [hplugin, drainedOf_congr h.opened hext hdrained]
    exact h.buffers t p (hplugin ▸ hp)
  unused := by
    rw [hplugin]
    exact h.unused

/-- **What a handler drains goes to the buffer of its thread.** -/
theorem of_sampled (h : s.Recording) (hregistry : s'.Registry) (hext : s.Extends s')
    {t : ThreadId} {k k' : Task} {xs : List (Entry T)} (hk : s.threads t = some k)
    (hbuffers : s'.plugin.thread_event_buffers_ = s.plugin.thread_event_buffers_)
    (hheap : s'.plugin.heap = s.plugin.heap.extend k.thread.event_data_ xs)
    (hallocated : s'.plugin.allocated = s.plugin.allocated) (hopened : s'.opened = s.opened)
    (hdrained : s'.drained = s.drained ++ xs) (huses : ∀ x ∈ xs, k.thread.Uses x.fd)
    (htask : s.TaskOk t k')
    (hthreads : s'.threads = Function.update s.threads t (some k')) : s'.Recording := by
  have hok := h.tasks t k hk
  have hmine : ∀ x ∈ xs, ∃ r, s.opened x.fd = some r ∧ r.tid = t :=
    fun x hx => hok.uses x.fd (huses x hx)
  -- a thread without a buffer has no event, and nothing to drain
  have hnil : k.thread.event_data_ = none → xs = [] := by
    intro hdata
    refine List.eq_nil_iff_forall_not_mem.mpr fun x hx => ?_
    exact hok.registered (Or.inr (Or.inr ⟨x.fd, huses x hx⟩)) hdata
  have hof : ∀ u, s'.drainedOf u = s.drainedOf u ++ if u = t then xs else [] := by
    intro u
    rw [drainedOf, drainedOf, hdrained, hopened, List.filter_append]
    congr 1
    split
    case isTrue hut =>
      refine List.filter_eq_self.mpr fun x hx => ?_
      obtain ⟨r, hr, htid⟩ := hmine x hx
      simp [hr, htid, hut]
    case isFalse hut =>
      refine List.filter_eq_nil_iff.mpr fun x hx => ?_
      obtain ⟨r, hr, htid⟩ := hmine x hx
      simp [hr, htid, Ne.symm hut]
  refine ⟨hregistry, fun u j hu => ?_, ?_, fun x hx => ?_, ?_, ?_⟩
  · rw [hthreads] at hu
    by_cases hut : u = t
    · subst hut
      rw [Function.update_self] at hu
      cases hu
      exact htask.of_extends hext
    · rw [Function.update_of_ne hut] at hu
      exact (h.tasks u j hu).of_extends hext
  · rw [hopened, hbuffers]
    exact h.owner
  · rw [hdrained, List.mem_append] at hx
    rw [hopened]
    rcases hx with hx | hx
    · exact h.opened x hx
    · obtain ⟨r, hr, -⟩ := hmine x hx
      rw [hr]
      exact Option.some_ne_none r
  · intro u q hq
    rw [hbuffers] at hq
    rw [hheap, hof]
    cases hdata : k.thread.event_data_ with
    | none =>
        rw [hnil hdata, ite_self, List.append_nil]
        exact h.buffers u q hq
    | some p =>
        have hp := hok.buffer p hdata
        rw [Heap.extend_some]
        by_cases hut : u = t
        · subst hut
          cases hp.symm.trans hq
          rw [Function.update_self, if_pos rfl, h.buffers u _ hq]
        · have hne : q ≠ p := fun heq => hut (h.registry.injective u t _ hq (heq ▸ hp))
          rw [Function.update_of_ne hne, if_neg hut, List.append_nil]
          exact h.buffers u q hq
  · intro q hq
    rw [hallocated] at hq
    rw [hheap]
    cases hdata : k.thread.event_data_ with
    | none =>
        rw [hnil hdata]
        exact h.unused q hq
    | some p =>
        obtain ⟨p', hp', heq⟩ := h.registry.allocated t _ (hok.buffer p hdata)
        cases heq
        rw [Heap.extend_some, Function.update_of_ne (hp'.trans_le hq).ne']
        exact h.unused q hq

end Process.Recording

/-- The task of a thread whose call comes to `event_open`. -/
theorem Process.TaskOk.of_opened (hext : s.Extends s') {t : ThreadId} {k k' : Task}
    (h : s.TaskOk t k) {r : Registration} {attr : PerfEventAttribute} {o : OpenOutcome}
    (hcall : k.call = some (.registered r attr)) (htid : r.tid = t)
    (hfresh : s.opened o.fd = none) (hopened : s'.opened = s.openedBy o r)
    (hthread : k'.thread = (k.thread.event_open g attr o).2) : s'.TaskOk t k' := by
  have hring : o.fd ∉ k.thread.ring_buffers_ := by
    intro hmem
    obtain ⟨r', hr', -⟩ := h.uses o.fd (Or.inl hmem)
    rw [hfresh] at hr'
    cases hr'
  have hdata : k'.thread.event_data_ = k.thread.event_data_ := by
    rw [hthread, Thread.event_open_thread hring]
  have hset : k.thread.event_data_ ≠ none := h.registered (Or.inr (Or.inl ⟨_, hcall, trivial⟩))
  refine ⟨fun p hp => ?_, fun _ => hdata ▸ hset, fun fd hfd => ?_⟩
  · exact hext.buffers t _ (h.buffer p (hdata ▸ hp))
  · rw [hthread] at hfd
    rcases Thread.uses_event_open hring hfd with hold | ⟨hnonneg, rfl⟩
    · obtain ⟨r', hr', htid'⟩ := h.uses fd hold
      exact ⟨r', hext.opened fd r' hr', htid'⟩
    · refine ⟨r, ?_, htid⟩
      rw [hopened, Process.openedBy, if_pos hnonneg, Function.update_self]

/-- A step of a thread's own code on an event it has. -/
theorem Process.TaskOk.enable_fd {t : ThreadId} {k : Task} (h : s.TaskOk t k) (fd : Fd)
    {f f' : Frame} (hcall : k.call = some f) (hf : f.Registered) :
    s.TaskOk t { k with thread := k.thread.enable_fd fd, call := some f' } :=
  h.of_same rfl (fun _ => Thread.Uses.of_modify) fun _ => Or.inr (Or.inl ⟨f, hcall, hf⟩)

/-- `event_open`, whether it fails or not. -/
theorem Process.Recording.of_event_open (h : s.Recording) {t : ThreadId} {k k' : Task}
    {r : Registration} {attr : PerfEventAttribute} {o : OpenOutcome}
    (hregistry : ({ s with opened := s.openedBy o r }.set t k').Registry)
    (hext : s.Extends ({ s with opened := s.openedBy o r }.set t k'))
    (hk : s.threads t = some k) (hcall : k.call = some (.registered r attr))
    (hfresh : s.opened o.fd = none)
    (hthread : k'.thread = (k.thread.event_open g attr o).2) :
    ({ s with opened := s.openedBy o r }.set t k').Recording := by
  have hr : s.CallOk t k.call := h.registry.calls t k hk
  rw [hcall] at hr
  obtain ⟨htid, hregistered, -⟩ := hr
  obtain ⟨p, hp⟩ := h.registry.buffer _ (List.mem_of_getElem? hregistered.entry)
  have hmem : r.tid ∈ s.plugin.thread_event_buffers_ :=
    AList.lookup_isSome.mp (Option.isSome_of_eq_some hp)
  refine h.of_opened hregistry hext rfl rfl rfl hmem
    (Process.forall_set (fun u j hu => ?_) ?_)
  · exact (h.tasks u j hu).of_extends hext
  · exact .of_opened hext (h.tasks t k hk) hcall htid hfresh rfl hthread

/-- **Every step keeps the recording**, if first metrics have new thread ids. -/
theorem Process.Recording.step (h : s.Recording) (hown : OwnId s e)
    (hstep : Process.Step g pfm s e s') : s'.Recording := by
  have hregistry := h.registry.step hstep
  have hext := hstep.extends
  cases hstep with
  | start blocked hnone =>
      refine h.of_same hregistry hext rfl rfl rfl rfl rfl (Process.forall_set h.tasks ?_)
      refine ⟨fun p hp => (by cases hp), ?_, fun fd hfd => absurd hfd ?_⟩
      · rintro (hdone | ⟨f, hf, -⟩ | ⟨fd, hfd⟩)
        · cases hdone
        · cases hf
        · exact absurd hfd (Thread.not_uses_new blocked)
      · exact Thread.not_uses_new blocked
  | exit => exact h.of_same hregistry hext rfl rfl rfl rfl rfl (Process.forall_erase h.tasks)
  | refused => exact h
  | @called t k metric event attr hk hhandler hcall hencode =>
      refine h.of_same hregistry hext rfl rfl rfl rfl rfl (Process.forall_set h.tasks ?_)
      refine (h.tasks t k hk).of_same rfl (fun _ => id) ?_
      rintro (hdone | ⟨f, hf, hpast⟩ | huses)
      · exact Or.inl hdone
      · cases hf
        exact hpast.elim
      · exact Or.inr (Or.inr huses)
  | @known t k metric event attr hk hhandler hcall hmem =>
      have hok := h.tasks t k hk
      have hdata : k.thread.event_data_ ≠ none := fun hnone => hown k hk hnone hmem
      refine h.of_same hregistry hext rfl rfl rfl rfl rfl (Process.forall_set h.tasks ?_)
      exact ⟨hok.buffer, fun _ => hdata, hok.uses⟩
  | @added t k metric event attr hk hhandler hcall hmem =>
      exact h.of_added hregistry hext hmem rfl rfl rfl rfl rfl rfl rfl (h.tasks t k hk).uses
  | failed hk hhandler hcall hfresh hopen =>
      exact h.of_event_open hregistry hext hk hcall hfresh rfl
  | opened hk hhandler hcall hfresh hopen =>
      exact h.of_event_open hregistry hext hk hcall hfresh rfl
  | @enabled t k r fd x fds hk hhandler hcall =>
      refine h.of_same hregistry hext rfl rfl rfl rfl rfl (Process.forall_set h.tasks ?_)
      exact (h.tasks t k hk).enable_fd x hcall trivial
  | @returned t k r fd hk hhandler hcall =>
      refine h.of_same hregistry hext rfl rfl rfl rfl rfl (Process.forall_set h.tasks ?_)
      exact (h.tasks t k hk).of_same rfl (fun _ => id) fun _ =>
        Or.inr (Or.inl ⟨_, hcall, trivial⟩)
  | @stopped t k hk hhandler hcall =>
      refine h.of_same hregistry hext rfl rfl rfl rfl rfl (Process.forall_set h.tasks ?_)
      exact (h.tasks t k hk).of_same rfl (fun _ => id) id
  | @sampled t k e x hk hnext =>
      obtain ⟨hheap, hdata, hfds⟩ := Sampler.next_heap hnext
      have huses : ∀ fd, x.thread.Uses fd → k.thread.Uses fd :=
        fun fd => Sampler.uses_of_next hnext
      refine h.of_sampled hregistry hext hk rfl hheap rfl rfl rfl (fun y hy => ?_) ?_ rfl
      · exact Or.inr (Or.inr (Or.inr ⟨_, hfds y hy⟩))
      · refine (h.tasks t k hk).of_same hdata huses ?_
        rintro (hdone | hcall | ⟨fd, hfd⟩)
        · exact Or.inl hdone
        · exact Or.inr (Or.inl hcall)
        · exact Or.inr (Or.inr ⟨fd, huses fd hfd⟩)

theorem Process.Recording.of_exec {es : List ProcessEvent}
    (hown : (processMachine g pfm T).Along OwnId (.init T) es)
    (hrun : (processMachine g pfm T).exec (.init T) es = some s) : s.Recording :=
  (processMachine g pfm T).exec_invariant (I := Process.Recording)
    (fun _ _ _ h hown hnext => h.step hown (Process.step_of_next hnext)) (.init T) hown hrun

/-- A new thread is given an id that is not in the map. -/
def FreshId (s : Process T) : ProcessEvent → Prop
  | .start t _ => t ∉ s.plugin.thread_event_buffers_
  | _ => True

/-- A thread that has no buffer has no entry in the map. -/
def Process.Unregistered (s : Process T) : Prop :=
  ∀ t k, s.threads t = some k → k.thread.event_data_ = none →
    t ∉ s.plugin.thread_event_buffers_

theorem Process.Unregistered.ownId (h : s.Unregistered) (e : ProcessEvent) : OwnId s e := by
  cases e with
  | register t => exact h t
  | _ => trivial

theorem Process.Unregistered.step (h : s.Unregistered) (hrecording : s.Recording)
    (hfresh : FreshId s e) (hstep : Process.Step g pfm s e s') : s'.Unregistered := by
  have hopen : ∀ {t k} {o : OpenOutcome} (attr : PerfEventAttribute), s.threads t = some k →
      s.opened o.fd = none → (k.thread.event_open g attr o).2.event_data_ = none →
      t ∉ s.plugin.thread_event_buffers_ := by
    intro t k o attr hk hnone hdata
    have hring : o.fd ∉ k.thread.ring_buffers_ := fun hmem => by
      obtain ⟨r, hr, -⟩ := (hrecording.tasks t k hk).uses o.fd (Or.inl hmem)
      rw [hnone] at hr
      cases hr
    rw [Thread.event_open_thread hring] at hdata
    exact h t k hk hdata
  cases hstep with
  | start => exact Process.forall_set h fun _ => hfresh
  | exit => exact Process.forall_erase h
  | refused => exact h
  | @called t k _ _ _ hk => exact Process.forall_set h (h t k hk)
  | @known t k _ _ _ hk => exact Process.forall_set h (h t k hk)
  | @added t k metric event attr hk hhandler hcall hmem =>
      intro u j hu hdata
      by_cases hut : u = t
      · subst hut
        cases (Process.set_threads_self _ u _).symm.trans hu
        cases hdata
      · rw [Process.set_threads_ne _ _ hut] at hu
        show u ∉ s.plugin.thread_event_buffers_.insert t _
        rw [AList.mem_insert]
        exact not_or.mpr ⟨hut, h u j hu hdata⟩
  | @failed t k r attr o e hk hhandler hcall hnone =>
      exact Process.forall_set h (hopen attr hk hnone)
  | @opened t k r attr o hk hhandler hcall hnone =>
      exact Process.forall_set h (hopen attr hk hnone)
  | @enabled t k _ _ _ _ hk => exact Process.forall_set h (h t k hk)
  | @returned t k _ _ hk => exact Process.forall_set h (h t k hk)
  | @stopped t k hk => exact Process.forall_set h (h t k hk)
  | @sampled t k e x hk hnext =>
      obtain ⟨-, hdata, -⟩ := Sampler.next_heap hnext
      exact Process.forall_set h fun hnone => h t k hk (hdata ▸ hnone)

/-- **Without reuse of thread ids** a first metric has a new thread id. -/
theorem ownId_of_freshId {es : List ProcessEvent}
    (h : (processMachine g pfm T).Along FreshId (.init T) es) :
    (processMachine g pfm T).Along OwnId (.init T) es :=
  (processMachine g pfm T).along_imp (I := fun s => s.Recording ∧ s.Unregistered)
    (fun _ e _ ⟨hrecording, hunregistered⟩ hfresh hnext =>
      ⟨hrecording.step (hunregistered.ownId e) (Process.step_of_next hnext),
        hunregistered.step hrecording hfresh (Process.step_of_next hnext)⟩)
    (fun _ e ⟨_, hunregistered⟩ _ => hunregistered.ownId e)
    ⟨.init T, fun _ _ hk => by cases hk⟩ h

/-- **A first metric under an id that is in the map** brings no buffer: the call returns,
and what the thread's handlers drain is dropped from then on. -/
theorem no_buffer_of_known_id {t : ThreadId} {k : Task} {metric event : List Char}
    {attr : PerfEventAttribute} {o : OpenOutcome} (hk : s.threads t = some k)
    (hhandler : k.thread.handler = none) (hcall : k.call = some (.encoded metric event attr))
    (hdata : k.thread.event_data_ = none) (hmem : t ∈ s.plugin.thread_event_buffers_)
    (hfresh : s.opened o.fd = none) (hring : o.fd ∉ k.thread.ring_buffers_)
    (hopen : (k.thread.event_open g attr o).1 = .ok ()) :
    ∃ n s' k', (processMachine g pfm T).exec s
        (.register t :: .event_open t o :: List.replicate (n + 1) (.enable t)) = some s' ∧
      s'.threads t = some k' ∧ k'.completed = true ∧ k'.thread.event_data_ = none := by
  have hregister : (s.plugin.register t event k.thread).2.2 = k.thread := by
    rw [register_eq, if_pos hmem, if_pos hmem, if_pos hmem]
  have hhandler' : (k.thread.event_open g attr o).2.handler = none := by
    rw [Thread.event_open_thread hring]
    exact hhandler
  have hdata' : (k.thread.event_open g attr o).2.event_data_ = none := by
    rw [Thread.event_open_thread hring]
    exact hdata
  obtain ⟨s₁, hs₁, hk₁, hfresh₁⟩ : ∃ s₁, (processMachine g pfm T).next s (.register t) = some s₁ ∧
      s₁.threads t = some { k with
        call := some (.registered (s.registration t metric event) attr) } ∧
      s₁.opened o.fd = none := by
    refine ⟨_, Process.next_register hk hhandler hcall, ?_, hfresh⟩
    rw [hregister, Process.set_threads_self]
  obtain ⟨s₂, fds, hs₂, hk₂⟩ : ∃ s₂ fds,
      (processMachine g pfm T).next s₁ (.event_open t o) = some s₂ ∧
      s₂.threads t = some { k with
        thread := (k.thread.event_open g attr o).2
        call := some (.enabling (s.registration t metric event) o.fd fds) } :=
    ⟨_, _, Process.next_event_open hk₁ hhandler rfl hfresh₁ hopen, Process.set_threads_self _ t _⟩
  obtain ⟨s', hs', hk'⟩ : ∃ s',
      (processMachine g pfm T).exec s₂ (List.replicate (fds.length + 1) (.enable t)) = some s' ∧
      s'.threads t
        = some ⟨fds.foldl Thread.enable_fd (k.thread.event_open g attr o).2, none, true⟩ :=
    ⟨_, Process.exec_enable hk₂ hhandler' rfl, Process.set_threads_self _ t _⟩
  refine ⟨fds.length, s', _, ?_, hk', rfl, ?_⟩
  · rw [Machine.exec_cons, hs₁, Option.bind_some, Machine.exec_cons, hs₂]
    exact hs'
  · rw [Thread.foldl_enable_fd]
    exact hdata'

/-- **Every registered thread records into its own buffer**, in every run in which no
thread registers its first metric under an id that is in the map: a thread that has
completed `add_metric` has the buffer of its id, and nothing its handlers have drained
is missing there. -/
theorem records_into_own_buffer {es : List ProcessEvent}
    (hown : (processMachine g pfm T).Along OwnId (.init T) es)
    (hrun : (processMachine g pfm T).exec (.init T) es = some s) :
    (∀ t k, s.threads t = some k → k.completed = true →
      ∃ p, k.thread.event_data_ = some p ∧
        s.plugin.thread_event_buffers_.lookup t = some (some p)) ∧
    (∀ x ∈ s.drained, ∃ r p, s.opened x.fd = some r ∧
      s.plugin.thread_event_buffers_.lookup r.tid = some (some p) ∧ x ∈ s.plugin.heap p) ∧
    ∀ t p, s.plugin.thread_event_buffers_.lookup t = some (some p) →
      s.plugin.heap p = s.drainedOf t := by
  have h : s.Recording := .of_exec hown hrun
  refine ⟨fun t k hk hdone => ?_, fun x hx => ?_, h.buffers⟩
  · have hok := h.tasks t k hk
    obtain ⟨p, hp⟩ := Option.ne_none_iff_exists'.mp (hok.registered (Or.inl hdone))
    exact ⟨p, hp, hok.buffer p hp⟩
  · obtain ⟨r, hr⟩ := Option.ne_none_iff_exists'.mp (h.opened x hx)
    obtain ⟨b, hb⟩ := Option.isSome_iff_exists.mp (AList.lookup_isSome.mpr (h.owner x.fd r hr))
    obtain ⟨p, -, rfl⟩ := h.registry.allocated r.tid b hb
    refine ⟨r, p, hr, hb, ?_⟩
    rw [h.buffers r.tid p hb, Process.drainedOf, List.mem_filter]
    exact ⟨hx, by simp [hr]⟩

end Steps

end Recording

/-- A sample of an event, and its handler from its entry to its return. -/
def sampleSteps (t : ThreadId) (fd : Fd) (e : SamplingEvent) : List ProcessEvent :=
  [.sampling t (.sample fd e), .sampling t .deliver, .sampling t (.handle 7),
    .sampling t (.handle 7), .sampling t (.handle 7), .sampling t (.handle 7),
    .sampling t (.handle 7)]

set_option maxRecDepth 10000 in
/-- A thread exits after its first sample, and a thread with another id starts. -/
theorem records_into_own_buffer_two_threads :
    ∃ s : Process .perf, (processMachine .x86 .intel .perf).exec (.init .perf)
        (.start ⟨1⟩ false :: addSteps ⟨1⟩ "Load@1000".toList (.success 3 fun _ => 0) 1
          ++ sampleSteps ⟨1⟩ 3 aLoad ++ [.exit ⟨1⟩, .start ⟨2⟩ false]
          ++ addSteps ⟨2⟩ "Load@1000".toList (.success 4 fun _ => 0) 1
          ++ sampleSteps ⟨2⟩ 4 aLoad) = some s ∧
      s.drained.length = 2 ∧ ∀ x ∈ s.drained, ∃ p, x ∈ s.plugin.heap p := by
  generalize hes : (ProcessEvent.start ⟨1⟩ false :: addSteps ⟨1⟩ "Load@1000".toList
    (.success 3 fun _ => 0) 1 ++ sampleSteps ⟨1⟩ 3 aLoad ++ [.exit ⟨1⟩, .start ⟨2⟩ false]
    ++ addSteps ⟨2⟩ "Load@1000".toList (.success 4 fun _ => 0) 1
    ++ sampleSteps ⟨2⟩ 4 aLoad) = es
  have hown : (processMachine .x86 .intel .perf).Along OwnId (.init .perf) es := by
    refine Machine.along_of_checks _ (b := fun s e => decide (OwnId s e))
      (fun _ _ => of_decide_eq_true) ?_
    subst hes
    decide +kernel
  have hlength : ((processMachine .x86 .intel .perf).exec (.init .perf) es).map
      (fun s => s.drained.length) = some 2 := by
    subst hes
    decide +kernel
  obtain ⟨s, hrun, hs⟩ := Option.map_eq_some_iff.mp hlength
  refine ⟨s, hrun, hs, fun x hx => ?_⟩
  obtain ⟨r, p, -, -, hmem⟩ := (records_into_own_buffer hown hrun).2.1 x hx
  exact ⟨p, hmem⟩

/-- A thread exits, and a thread with its id starts, adds a metric and takes a sample. -/
def sameId : List ProcessEvent :=
  .start ⟨1⟩ false :: addSteps ⟨1⟩ "Load@1000".toList (.success 3 fun _ => 0) 1
    ++ [.exit ⟨1⟩, .start ⟨1⟩ false]
    ++ addSteps ⟨1⟩ "Load@1000".toList (.success 4 fun _ => 0) 1 ++ sampleSteps ⟨1⟩ 4 aLoad

set_option maxRecDepth 10000 in
/-- **A thread with the id of an exited one records nothing.**  It has completed
`add_metric` without a buffer, and its sample is drained and dropped. -/
theorem same_id_records_nothing :
    (¬ ∀ es (s : Process .perf),
      (processMachine .x86 .intel .perf).exec (.init .perf) es = some s →
      ∀ t k, s.threads t = some k → k.completed = true →
        ∃ p, k.thread.event_data_ = some p ∧
          s.plugin.thread_event_buffers_.lookup t = some (some p)) ∧
    ((processMachine .x86 .intel .perf).exec (.init .perf) sameId).map
      (fun s => (s.drained.length, (s.plugin.heap 0).length, s.plugin.allocated))
        = some (1, 0, 1) := by
  constructor
  · intro hall
    have hlast : ((processMachine .x86 .intel .perf).exec (.init .perf) sameId).bind
        (fun s => (s.threads ⟨1⟩).map fun k => (k.completed, k.thread.event_data_))
        = some (true, none) := by
      decide +kernel
    obtain ⟨s, hrun, hs⟩ := Option.bind_eq_some_iff.mp hlast
    obtain ⟨k, hk, hs⟩ := Option.map_eq_some_iff.mp hs
    obtain ⟨hdone, hdata⟩ := Prod.mk.inj hs
    obtain ⟨p, hp, -⟩ := hall _ s hrun _ k hk hdone
    rw [hdata] at hp
    cases hp
  · decide +kernel

end AccessSampling
