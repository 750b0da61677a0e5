import AccessSampling.Stop

/-!
# Whose buffer it is

Threads come and go, the system may use a thread id again, calls of `add_metric` fail half way,
rings fill up, and handlers run at any time.  Whatever happens, a thread appends to the buffer
of its thread id or to none, and a buffer has nothing but what was drained from events that
threads with its id have opened.

* `Process.Moves` — what one step of the process makes of one thread; `Process.Step.came` and
  `Process.Step.drains` say so of every step.
* `Process.Owned` — which buffer a thread appends to, and whose entries a buffer has.
* `Process.Whole` — a thread's samples are all in its buffer, or in none.

`Process.Recording` needs the ids of threads that register their first metric to be new;
these invariants hold in **every** run of `processMachine`.  "Or to none" is where they
differ: a thread whose id was used before finds it in the map, is given no buffer, and what
its handlers drain is nowhere.  `Process.Moves` has a case for each thing that can be done to
a thread's own members, so that an invariant of one thread need not know the frames of
`add_metric`.
-/

namespace AccessSampling

open Foundation

variable {T : TraceEvents} {g : Geometry} {pfm : Pfm} {s s' : Process T} {e : ProcessEvent}

/-! ### What a step makes of a thread -/

/-- What the thread `t` is once the process has taken a step. -/
inductive Process.Moves (g : Geometry) (s : Process T) (e : ProcessEvent) (s' : Process T)
    (t : ThreadId) (k : Task) : Thread → Prop where
  | stays (hother : ∀ f, e ≠ .sampling t f) : Moves g s e s' t k k.thread
  /-- It is given the buffer of its thread id. -/
  | buffer (hother : ∀ f, e ≠ .sampling t f) (hhandler : k.thread.handler = none)
      (hmem : t ∉ s.plugin.thread_event_buffers_)
      (hbuffers : s'.plugin.thread_event_buffers_
        = s.plugin.thread_event_buffers_.insert t (some s.plugin.allocated)) :
      Moves g s e s' t k (k.thread.set_event_buffer (some s.plugin.allocated))
  | event_open (hother : ∀ f, e ≠ .sampling t f) {r : Registration} {attr : PerfEventAttribute}
      {o : OpenOutcome} (hhandler : k.thread.handler = none)
      (hcall : k.call = some (.registered r attr)) (hfresh : s.opened o.fd = none)
      (hopened : s'.opened = s.openedBy o r) :
      Moves g s e s' t k (k.thread.event_open g attr o).2
  | enable_fd (hother : ∀ f, e ≠ .sampling t f) (hhandler : k.thread.handler = none) (fd : Fd) :
      Moves g s e s' t k (k.thread.enable_fd fd)
  | disable (hother : ∀ f, e ≠ .sampling t f) (hhandler : k.thread.handler = none) :
      Moves g s e s' t k k.thread.disable
  /-- One of its events takes a sample, it enters its handler, or the handler goes on. -/
  | sampled {f : SamplerEvent} {x : Sampler T} (he : e = .sampling t f)
      (hnext : (samplerMachine g T).next ⟨k.thread, s.plugin.heap⟩ f = some x) :
      Moves g s e s' t k x.thread

/-- A thread that runs has run before, or has just started. -/
def Process.Came (g : Geometry) (s : Process T) (e : ProcessEvent) (s' : Process T)
    (t : ThreadId) (th : Thread) : Prop :=
  (s.threads t = none ∧ ∃ blocked, th = { Thread.new with blocked := blocked }) ∨
    ∃ k, s.threads t = some k ∧ s.Moves g e s' t k th

/-- **What a step makes of the threads.** -/
theorem Process.Step.came (h : Process.Step g pfm s e s') :
    ∀ t k', s'.threads t = some k' → s.Came g e s' t k'.thread := by
  have hstays : (∀ t f, e ≠ .sampling t f) → ∀ t k, s.threads t = some k →
      s.Came g e s' t k.thread := fun he t k hk => Or.inr ⟨k, hk, .stays (he t)⟩
  cases h with
  | start blocked hnone =>
      exact Process.forall_set (hstays fun _ _ => nofun) (Or.inl ⟨hnone, blocked, rfl⟩)
  | exit => exact Process.forall_erase (hstays fun _ _ => nofun)
  | refused => exact hstays fun _ _ => nofun
  | called hk =>
      exact Process.forall_set (hstays fun _ _ => nofun) (Or.inr ⟨_, hk, .stays fun _ => nofun⟩)
  | known hk =>
      exact Process.forall_set (hstays fun _ _ => nofun) (Or.inr ⟨_, hk, .stays fun _ => nofun⟩)
  | added hk hhandler hcall hmem =>
      refine Process.forall_set (hstays fun _ _ => nofun) (Or.inr ⟨_, hk, ?_⟩)
      exact .buffer (fun _ => ProcessEvent.noConfusion) hhandler hmem rfl
  | failed hk hhandler hcall hfresh =>
      refine Process.forall_set (hstays fun _ _ => nofun) (Or.inr ⟨_, hk, ?_⟩)
      exact .event_open (fun _ => ProcessEvent.noConfusion) hhandler hcall hfresh rfl
  | opened hk hhandler hcall hfresh =>
      refine Process.forall_set (hstays fun _ _ => nofun) (Or.inr ⟨_, hk, ?_⟩)
      exact .event_open (fun _ => ProcessEvent.noConfusion) hhandler hcall hfresh rfl
  | enabled hk hhandler =>
      refine Process.forall_set (hstays fun _ _ => nofun) (Or.inr ⟨_, hk, ?_⟩)
      exact .enable_fd (fun _ => ProcessEvent.noConfusion) hhandler _
  | returned hk =>
      exact Process.forall_set (hstays fun _ _ => nofun) (Or.inr ⟨_, hk, .stays fun _ => nofun⟩)
  | stopped hk hhandler =>
      exact Process.forall_set (hstays fun _ _ => nofun)
        (Or.inr ⟨_, hk, .disable (fun _ => nofun) hhandler⟩)
  | @sampled t k f x hk hnext =>
      intro u j hu
      by_cases hut : u = t
      · subst hut
        cases (Process.set_threads_self _ u _).symm.trans hu
        exact Or.inr ⟨k, hk, .sampled rfl hnext⟩
      · rw [Process.set_threads_ne _ _ hut] at hu
        refine Or.inr ⟨j, hu, .stays fun f' heq => hut ?_⟩
        cases heq
        rfl

/-- **What a step makes of the buffers.**  Only the handlers append to them. -/
theorem Process.Step.drains (h : Process.Step g pfm s e s') :
    (s'.plugin.heap = s.plugin.heap ∧ s'.drained = s.drained ∧ ∀ t f, e ≠ .sampling t f) ∨
      ∃ t k f x, e = .sampling t f ∧ s.threads t = some k ∧
        (samplerMachine g T).next ⟨k.thread, s.plugin.heap⟩ f = some x ∧
        s' = { s with
          plugin := { s.plugin with heap := x.heap }
          drained := s.drained ++ drainedBy g ⟨k.thread, s.plugin.heap⟩ f }.set t
            { k with thread := x.thread } := by
  cases h with
  | sampled hk hnext => exact Or.inr ⟨_, _, _, _, rfl, hk, hnext, rfl⟩
  | _ => exact Or.inl ⟨rfl, rfl, fun _ _ => nofun⟩

/-! ### Whose entries a buffer has -/

/-- **The invariant of the buffers.**  A thread appends to the buffer of its thread id, or to
none, and what a buffer has was drained from events that threads with that id have opened. -/
structure Process.Owned (s : Process T) : Prop where
  buffer : ∀ t k, s.threads t = some k → ∀ p, k.thread.event_data_ = some p →
    s.plugin.thread_event_buffers_.lookup t = some (some p)
  uses : ∀ t k, s.threads t = some k → ∀ fd, k.thread.Uses fd →
    ∃ r, s.opened fd = some r ∧ r.tid = t
  entries : ∀ p, ∀ x ∈ s.plugin.heap p, ∃ r, s.opened x.fd = some r ∧
    s.plugin.thread_event_buffers_.lookup r.tid = some (some p)
  sublist : ∀ p, (s.plugin.heap p).Sublist s.drained
  drained : ∀ x ∈ s.drained, s.opened x.fd ≠ none

namespace Process.Owned

theorem init (T : TraceEvents) : (Process.init T).Owned where
  buffer t k hk := by cases hk
  uses t k hk := by cases hk
  entries p x hx := by cases hx
  sublist p := .slnil
  drained x hx := by cases hx

/-- A thread knows a descriptor only if it has opened it. -/
theorem not_uses (h : s.Owned) {t : ThreadId} {k : Task} {fd : Fd} (hk : s.threads t = some k)
    (hfresh : s.opened fd = none) : ¬ k.thread.Uses fd := by
  intro huses
  obtain ⟨r, hr, -⟩ := h.uses t k hk fd huses
  rw [hfresh] at hr
  cases hr

/-- The thread that has opened a descriptor is the only one to use it. -/
theorem tid_eq (h : s.Owned) {t u : ThreadId} {k j : Task} {fd : Fd} (hk : s.threads t = some k)
    (hj : s.threads u = some j) (huses : k.thread.Uses fd) (huses' : j.thread.Uses fd) : t = u := by
  obtain ⟨r, hr, rfl⟩ := h.uses t k hk fd huses
  obtain ⟨r', hr', rfl⟩ := h.uses u j hj fd huses'
  cases hr.symm.trans hr'
  rfl

/-- What one step makes of a thread. -/
theorem of_came (h : s.Owned) (hregistry : s.Registry) (hext : s.Extends s') {t : ThreadId}
    {th : Thread} (hcame : s.Came g e s' t th) :
    (∀ p, th.event_data_ = some p →
      s'.plugin.thread_event_buffers_.lookup t = some (some p)) ∧
    ∀ fd, th.Uses fd → ∃ r, s'.opened fd = some r ∧ r.tid = t := by
  have hbuffer : ∀ k, s.threads t = some k → ∀ p, k.thread.event_data_ = some p →
      s'.plugin.thread_event_buffers_.lookup t = some (some p) :=
    fun k hk p hp => hext.buffers t _ (h.buffer t k hk p hp)
  have huses : ∀ k, s.threads t = some k → ∀ fd, k.thread.Uses fd →
      ∃ r, s'.opened fd = some r ∧ r.tid = t := by
    intro k hk fd hfd
    obtain ⟨r, hr, htid⟩ := h.uses t k hk fd hfd
    exact ⟨r, hext.opened fd r hr, htid⟩
  obtain ⟨-, blocked, rfl⟩ | ⟨k, hk, hmoves⟩ := hcame
  · exact ⟨fun p hp => (by cases hp), fun fd hfd => absurd hfd (Thread.not_uses_new blocked)⟩
  cases hmoves with
  | stays => exact ⟨hbuffer k hk, huses k hk⟩
  | buffer _ _ hmem hbuffers =>
      refine ⟨fun p hp => ?_, huses k hk⟩
      cases hp
      rw [hbuffers, AList.lookup_insert]
  | @event_open _ r attr o _ hcall hfresh hopened =>
      have hring : o.fd ∉ k.thread.ring_buffers_ :=
        fun hmem => h.not_uses hk hfresh (Or.inl hmem)
      refine ⟨fun p hp => hbuffer k hk p ?_, fun fd hfd => ?_⟩
      · rwa [Thread.event_open_thread hring] at hp
      · rcases Thread.uses_event_open hring hfd with hold | ⟨hnonneg, rfl⟩
        · exact huses k hk fd hold
        · have hr : s.CallOk t k.call := hregistry.calls t k hk
          rw [hcall] at hr
          refine ⟨r, ?_, hr.1⟩
          rw [hopened, Process.openedBy, if_pos hnonneg, Function.update_self]
  | enable_fd _ _ x => exact ⟨hbuffer k hk, fun fd hfd => huses k hk fd hfd.of_modify⟩
  | disable => exact ⟨hbuffer k hk, huses k hk⟩
  | sampled _ hnext =>
      obtain ⟨-, hdata, -⟩ := Sampler.next_heap hnext
      exact ⟨fun p hp => hbuffer k hk p (hdata ▸ hp),
        fun fd hfd => huses k hk fd (Sampler.uses_of_next hnext hfd)⟩

theorem step (h : s.Owned) (hregistry : s.Registry) (hstep : Process.Step g pfm s e s') :
    s'.Owned := by
  have hext := hstep.extends
  have hthreads := fun t k hk => h.of_came hregistry hext (hstep.came t k hk)
  have hopened : ∀ fd, s.opened fd ≠ none → s'.opened fd ≠ none := by
    intro fd hfd
    obtain ⟨r, hr⟩ := Option.ne_none_iff_exists'.mp hfd
    rw [hext.opened fd r hr]
    exact Option.some_ne_none r
  have hentry : ∀ p (x : Entry T),
      (∃ r, s.opened x.fd = some r ∧
        s.plugin.thread_event_buffers_.lookup r.tid = some (some p)) →
      ∃ r, s'.opened x.fd = some r ∧
        s'.plugin.thread_event_buffers_.lookup r.tid = some (some p) := by
    rintro p x ⟨r, hr, hp⟩
    exact ⟨r, hext.opened x.fd r hr, hext.buffers r.tid _ hp⟩
  refine ⟨fun t k hk => (hthreads t k hk).1, fun t k hk => (hthreads t k hk).2, ?_, ?_, ?_⟩
  all_goals obtain ⟨hheap, hdrained, -⟩ | ⟨t, k, f, x, rfl, hk, hnext, rfl⟩ := hstep.drains
  · rw [hheap]
    exact fun p x hx => hentry p x (h.entries p x hx)
  · obtain ⟨hheap, -, hfds⟩ := Sampler.next_heap hnext
    intro p y hy
    have hy' : y ∈ x.heap p := hy
    rw [hheap] at hy'
    cases hdata : k.thread.event_data_ with
    | none =>
        rw [hdata, Heap.extend_none] at hy'
        exact hentry p y (h.entries p y hy')
    | some q =>
        rw [hdata, Heap.extend_some] at hy'
        by_cases hpq : p = q
        · subst hpq
          rw [Function.update_self, List.mem_append] at hy'
          rcases hy' with hy' | hy'
          · exact hentry p y (h.entries p y hy')
          · -- it is of the handler's ring, which is the thread's own
            obtain ⟨r, hr, rfl⟩ := h.uses t k hk y.fd
              (Or.inr (Or.inr (Or.inr ⟨_, hfds y hy'⟩)))
            exact ⟨r, hr, h.buffer r.tid k hk p hdata⟩
        · rw [Function.update_of_ne hpq] at hy'
          exact hentry p y (h.entries p y hy')
  · rw [hheap, hdrained]
    exact h.sublist
  · obtain ⟨hheap, -, -⟩ := Sampler.next_heap hnext
    intro p
    show (x.heap p).Sublist (s.drained ++ drainedBy g ⟨k.thread, s.plugin.heap⟩ f)
    rw [hheap]
    cases hdata : k.thread.event_data_ with
    | none =>
        rw [Heap.extend_none]
        exact (h.sublist p).trans (List.sublist_append_left _ _)
    | some q =>
        rw [Heap.extend_some]
        by_cases hpq : p = q
        · subst hpq
          rw [Function.update_self]
          exact (h.sublist p).append_right _
        · rw [Function.update_of_ne hpq]
          exact (h.sublist p).trans (List.sublist_append_left _ _)
  · rw [hdrained]
    exact fun x hx => hopened x.fd (h.drained x hx)
  · obtain ⟨-, -, hfds⟩ := Sampler.next_heap hnext
    intro y hy
    rcases List.mem_append.mp hy with hy | hy
    · exact h.drained y hy
    · obtain ⟨r, hr, -⟩ := h.uses t k hk y.fd (Or.inr (Or.inr (Or.inr ⟨_, hfds y hy⟩)))
      intro hnone
      cases hr.symm.trans hnone

theorem of_exec {es : List ProcessEvent}
    (hrun : (processMachine g pfm T).exec (.init T) es = some s) : s.Owned :=
  ((processMachine g pfm T).exec_preserves (I := fun s => s.Registry ∧ s.Owned)
    (fun _ _ _ hinv hnext => ⟨hinv.1.step (Process.step_of_next hnext),
      hinv.2.step hinv.1 (Process.step_of_next hnext)⟩)
    ⟨.init T, .init T⟩ hrun).2

end Process.Owned

/-! ### All of a thread's samples, or none -/

/-- The entries of one descriptor. -/
def entriesOf (fd : Fd) (xs : List (Entry T)) : List (Entry T) := xs.filter fun x => x.fd = fd

theorem entriesOf_append (fd : Fd) (xs ys : List (Entry T)) :
    entriesOf fd (xs ++ ys) = entriesOf fd xs ++ entriesOf fd ys := List.filter_append _ _

theorem entriesOf_of_forall_ne {fd : Fd} {xs : List (Entry T)} (h : ∀ x ∈ xs, x.fd ≠ fd) :
    entriesOf fd xs = [] := by
  refine List.filter_eq_nil_iff.mpr fun x hx => ?_
  simp [h x hx]

/-- **The invariant of the descriptors.**  What was drained of an event is in the buffer of its
thread, or nowhere if the thread has none. -/
structure Process.Whole (s : Process T) : Prop where
  owner : ∀ fd r, s.opened fd = some r → r.tid ∈ s.plugin.thread_event_buffers_
  entries : ∀ t k, s.threads t = some k → ∀ fd, k.thread.Uses fd → ∀ p,
    entriesOf fd (s.plugin.heap p)
      = if k.thread.event_data_ = some p then entriesOf fd s.drained else []

namespace Process.Whole

theorem init (T : TraceEvents) : (Process.init T).Whole where
  owner fd r hr := by cases hr
  entries t k hk := by cases hk

/-- A descriptor that is opened belongs to a call that has registered its metric. -/
theorem owner_step (h : s.Whole) (hregistry : s.Registry) (hstep : Process.Step g pfm s e s') :
    ∀ fd r, s'.opened fd = some r → r.tid ∈ s'.plugin.thread_event_buffers_ := by
  have hkept : ∀ t, t ∈ s.plugin.thread_event_buffers_ → t ∈ s'.plugin.thread_event_buffers_ := by
    intro t ht
    obtain ⟨b, hb⟩ := Option.isSome_iff_exists.mp (AList.lookup_isSome.mpr ht)
    exact AList.lookup_isSome.mp (Option.isSome_of_eq_some (hstep.extends.buffers t b hb))
  have hsame : s'.opened = s.opened →
      ∀ fd r, s'.opened fd = some r → r.tid ∈ s'.plugin.thread_event_buffers_ := by
    intro heq fd r hr
    exact hkept _ (h.owner fd r (heq ▸ hr))
  have hopen : ∀ t k r attr (o : OpenOutcome), s.threads t = some k →
      k.call = some (.registered r attr) → s'.opened = s.openedBy o r →
      ∀ fd r', s'.opened fd = some r' → r'.tid ∈ s'.plugin.thread_event_buffers_ := by
    intro t k r attr o hk hcall hopened fd r' hr'
    rw [hopened, Process.openedBy] at hr'
    have hcallOk : s.CallOk t k.call := hregistry.calls t k hk
    rw [hcall] at hcallOk
    obtain ⟨-, hregistered, -⟩ := hcallOk
    split at hr'
    case isTrue =>
      by_cases hfd : fd = o.fd
      · subst hfd
        rw [Function.update_self] at hr'
        cases hr'
        obtain ⟨p, hp⟩ := hregistry.buffer _ (List.mem_of_getElem? hregistered.entry)
        exact hkept _ (AList.lookup_isSome.mp (Option.isSome_of_eq_some hp))
      · rw [Function.update_of_ne hfd] at hr'
        exact hkept _ (h.owner fd r' hr')
    case isFalse => exact hkept _ (h.owner fd r' hr')
  cases hstep with
  | failed hk _ hcall => exact hopen _ _ _ _ _ hk hcall rfl
  | opened hk _ hcall => exact hopen _ _ _ _ _ hk hcall rfl
  | _ => exact hsame rfl

/-- A thread whose events and handler take no step, as far as its descriptors go. -/
theorem of_came (h : s.Whole) (howned : s.Owned) {t : ThreadId}
    {th : Thread} (hcame : s.Came g e s' t th) (hother : ∀ f, e ≠ .sampling t f) :
    ∀ fd, th.Uses fd → ∀ p, entriesOf fd (s.plugin.heap p)
      = if th.event_data_ = some p then entriesOf fd s.drained else [] := by
  obtain ⟨-, blocked, rfl⟩ | ⟨k, hk, hmoves⟩ := hcame
  · exact fun fd hfd => absurd hfd (Thread.not_uses_new blocked)
  cases hmoves with
  | stays => exact h.entries t k hk
  | buffer _ _ hmem =>
      -- a thread with descriptors has its thread id in the map
      intro fd hfd
      obtain ⟨r, hr, rfl⟩ := howned.uses t k hk fd hfd
      exact absurd (h.owner fd r hr) hmem
  | @event_open _ r attr o _ hcall hfresh hopened =>
      have hring : o.fd ∉ k.thread.ring_buffers_ :=
        fun hmem => howned.not_uses hk hfresh (Or.inl hmem)
      have hdata : (k.thread.event_open g attr o).2.event_data_ = k.thread.event_data_ := by
        rw [Thread.event_open_thread hring]
      intro fd hfd p
      rw [hdata]
      rcases Thread.uses_event_open hring hfd with hold | ⟨-, rfl⟩
      · exact h.entries t k hk fd hold p
      · -- nothing has been drained of the new descriptor
        have hnone : ∀ x ∈ s.drained, x.fd ≠ o.fd :=
          fun x hx heq => howned.drained x hx (heq ▸ hfresh)
        rw [entriesOf_of_forall_ne hnone, ite_self]
        exact entriesOf_of_forall_ne fun x hx => hnone x ((howned.sublist p).subset hx)
  | enable_fd _ _ x => exact fun fd hfd => h.entries t k hk fd hfd.of_modify
  | disable => exact h.entries t k hk
  | sampled he => exact absurd he (hother _)

theorem step (h : s.Whole) (hregistry : s.Registry) (howned : s.Owned)
    (hstep : Process.Step g pfm s e s') : s'.Whole := by
  refine ⟨h.owner_step hregistry hstep, fun u j hj => ?_⟩
  have howned' := howned.step hregistry hstep
  obtain ⟨hheap, hdrained, hnot⟩ | ⟨t, k, f, x, rfl, hk, hnext, hs'⟩ := hstep.drains
  · rw [hheap, hdrained]
    exact h.of_came howned (hstep.came u j hj) (hnot u)
  obtain ⟨hheap, hdata, hfds⟩ := Sampler.next_heap hnext
  have hdrained : s'.drained = s.drained ++ drainedBy g ⟨k.thread, s.plugin.heap⟩ f := by
    rw [hs']
    rfl
  have hheap' : s'.plugin.heap = x.heap := by
    rw [hs']
    rfl
  rw [hdrained, hheap', hheap]
  by_cases hut : u = t
  · subst hut
    rw [hs', Process.set_threads_self] at hj
    cases hj
    intro fd hfd p
    have hold := h.entries u k hk fd (Sampler.uses_of_next hnext hfd) p
    show entriesOf fd (Heap.extend s.plugin.heap k.thread.event_data_ _ p)
      = if x.thread.event_data_ = some p then _ else _
    rw [hdata, entriesOf_append]
    cases hd : k.thread.event_data_ with
    | none =>
        rw [Heap.extend_none, hold, hd]
        rfl
    | some q =>
        rw [hd] at hold
        rw [Heap.extend_some]
        by_cases hpq : p = q
        · subst hpq
          rw [Function.update_self, entriesOf_append, hold, if_pos rfl, if_pos rfl]
        · have hne : some q ≠ some p := fun heq => hpq (Option.some.inj heq).symm
          rw [if_neg hne] at hold ⊢
          rw [Function.update_of_ne hpq]
          exact hold
  · intro fd hfd p
    have hmine := h.of_came howned (hstep.came u j hj)
      (fun f' heq => hut (by cases heq; rfl)) fd hfd p
    -- what the other thread has drained is not of this descriptor
    have hnone : ∀ y ∈ drainedBy g ⟨k.thread, s.plugin.heap⟩ f, y.fd ≠ fd := by
      rintro y hy rfl
      obtain ⟨r, hr, htid⟩ := howned.uses t k hk y.fd (Or.inr (Or.inr (Or.inr ⟨_, hfds y hy⟩)))
      obtain ⟨r', hr', htid'⟩ := howned'.uses u j hj y.fd hfd
      cases (hstep.extends.opened y.fd r hr).symm.trans hr'
      exact hut (htid'.symm.trans htid)
    rw [entriesOf_append, entriesOf_of_forall_ne hnone, List.append_nil, ← hmine]
    show entriesOf fd (Heap.extend s.plugin.heap k.thread.event_data_ _ p) = _
    cases hd : k.thread.event_data_ with
    | none => rw [Heap.extend_none]
    | some q =>
        rw [Heap.extend_some]
        by_cases hpq : p = q
        · subst hpq
          rw [Function.update_self, entriesOf_append, entriesOf_of_forall_ne hnone,
            List.append_nil]
        · rw [Function.update_of_ne hpq]

theorem of_exec {es : List ProcessEvent}
    (hrun : (processMachine g pfm T).exec (.init T) es = some s) : s.Whole :=
  ((processMachine g pfm T).exec_preserves
    (I := fun s => s.Registry ∧ s.Owned ∧ s.Whole)
    (fun _ _ _ hinv hnext => by
      obtain ⟨hregistry, howned, hwhole⟩ := hinv
      have hstep := Process.step_of_next hnext
      exact ⟨hregistry.step hstep, howned.step hregistry hstep,
        hwhole.step hregistry howned hstep⟩)
    ⟨.init T, .init T, .init T⟩ hrun).2.2

end Process.Whole

end AccessSampling
