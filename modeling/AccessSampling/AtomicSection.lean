import AccessSampling.Foundation.Simulation
import AccessSampling.Locking
import AccessSampling.Process

/-!
# The locked section as one step

`lockingMachine` takes `add_metric` statement by statement, and `processMachine` takes the
section under `buffer_mutex_` as one step.  Here the first is a refinement of the second: a
section happens where its `unlock ()` is, and until then its thread is where the other model
has it before the section.

* `InSection` — what a thread under the lock has done to the plugin, and to its own members.
* `Alike` — a thread that is not under the lock is at the same point in both models.
* `Locking.Refines` — the two states agree.
* `sectionSimulation` — each statement is a step of the other model, or none, or several.
* `section_atomic` — whenever the lock is free, the plugin and the threads are as sections in
  one piece leave them, one after another in the order of their `unlock ()`s.

A section is matched by one step of the other model when it *ends*, and not when it begins:
before its end it may still be left by an exception, of which the other model knows nothing.
So `section_atomic` is about the states of a run in which the lock is free.

`processMachine` gives each descriptor to one event only, because none is closed, and
`lockingMachine` does not look at descriptors.  The condition that those of a run are
distinct carries the promise of `perf_event_open` from one to the other.
-/

namespace AccessSampling

open Foundation

variable {T : TraceEvents} {g : Geometry} {pfm : Pfm} {buffer_size_ : UInt64}

/-! ### The two models, thread by thread -/

/-- The thread `t` holds the lock: it has come some way in its section, which is still to be
taken from the plugin `P`. -/
inductive InSection (P : Plugin T) (t : ThreadId) : Plugin T → Caller → Task → Prop where
  | find {th : Thread} {metric event : List Char} {attr : PerfEventAttribute} {done : Bool} :
      InSection P t P ⟨th, some (.find event attr)⟩ ⟨th, some (.encoded metric event attr), done⟩
  | make_shared {th : Thread} {metric event : List Char} {attr : PerfEventAttribute} {done : Bool}
      (hmem : t ∉ P.thread_event_buffers_) :
      InSection P t P ⟨th, some (.make_shared event attr)⟩
        ⟨th, some (.encoded metric event attr), done⟩
  | insert {th : Thread} {metric event : List Char} {attr : PerfEventAttribute} {done : Bool}
      (hmem : t ∉ P.thread_event_buffers_) :
      InSection P t { P with allocated := P.allocated + 1 }
        ⟨th, some (.insert event attr P.allocated)⟩ ⟨th, some (.encoded metric event attr), done⟩
  | push_back {th : Thread} {metric event : List Char} {attr : PerfEventAttribute} {done : Bool} :
      InSection P t { (P.register t event th).2.1 with all_events_ := P.all_events_ }
        ⟨(P.register t event th).2.2, some (.push_back event attr)⟩
        ⟨th, some (.encoded metric event attr), done⟩
  | unlock {th : Thread} {metric event : List Char} {attr : PerfEventAttribute} {done : Bool} :
      InSection P t (P.register t event th).2.1
        ⟨(P.register t event th).2.2, some (.unlock (P.register t event th).1 attr)⟩
        ⟨th, some (.encoded metric event attr), done⟩

/-- A thread that is not under the lock. -/
inductive Alike : Caller → Task → Prop where
  | idle {th : Thread} {done : Bool} : Alike ⟨th, none⟩ ⟨th, none, done⟩
  | lock {th : Thread} {metric event : List Char} {attr : PerfEventAttribute} {done : Bool} :
      Alike ⟨th, some (.lock event attr)⟩ ⟨th, some (.encoded metric event attr), done⟩
  | event_open {th : Thread} {r : Registration} {attr : PerfEventAttribute} {done : Bool} :
      Alike ⟨th, some (.event_open r.id attr)⟩ ⟨th, some (.registered r attr), done⟩

theorem Alike.thread_eq {c : Caller} {k : Task} (h : Alike c k) : k.thread = c.thread := by
  cases h with
  | idle => rfl
  | lock => rfl
  | event_open => rfl

/-- The descriptors that `perf_event_open` has returned. -/
def descriptors (es : List LockingEvent) : List Fd :=
  es.filterMap fun
    | .event_open _ o => if 0 ≤ o.fd then some o.fd else none
    | _ => none

/-- The threads that have gone through the section, in the order they unlocked. -/
def sections (es : List LockingEvent) : List ThreadId :=
  es.filterMap fun
    | .unlock t => some t
    | _ => none

/-- The threads that have taken the section in one step. -/
def registers (fs : List ProcessEvent) : List ThreadId :=
  fs.filterMap fun
    | .register t => some t
    | _ => none

theorem nonneg_of_mem_descriptors {es : List LockingEvent} {fd : Fd} (h : fd ∈ descriptors es) :
    0 ≤ fd := by
  obtain ⟨e, -, he⟩ := List.mem_filterMap.mp h
  split at he
  case h_1 =>
    split at he
    case isTrue hnonneg =>
      cases he
      exact hnonneg
    case isFalse => cases he
  case h_2 => cases he

theorem registers_append (fs gs : List ProcessEvent) :
    registers (fs ++ gs) = registers fs ++ registers gs := List.filterMap_append

/-- **The two states agree**, after the events `es` and `fs`. -/
structure Locking.Refines (es : List LockingEvent) (s : Locking T) (fs : List ProcessEvent)
    (a : Process T) : Prop where
  outside : ∀ t, s.buffer_mutex_ ≠ some t → Option.Rel Alike (s.threads t) (a.threads t)
  holder : ∀ t, s.buffer_mutex_ = some t →
    ∃ c k, s.threads t = some c ∧ a.threads t = some k ∧ InSection a.plugin t s.plugin c k
  plugin : s.buffer_mutex_ = none → s.plugin = a.plugin
  handler : ∀ t k, a.threads t = some k → k.thread.handler = none
  opened : ∀ fd, a.opened fd ≠ none → fd ∈ descriptors es
  order : registers fs = sections es

/-! ### Steps in the section -/

namespace InSection

variable {P L : Plugin T} {t : ThreadId} {th : Thread} {event : List Char}
variable {attr : PerfEventAttribute} {k : Task}

theorem known (h : InSection P t L ⟨th, some (.find event attr)⟩ k)
    (hmem : t ∈ L.thread_event_buffers_) :
    InSection P t L ⟨th, some (.push_back event attr)⟩ k := by
  cases h with
  | @find _ metric _ _ done =>
      have hpush := @InSection.push_back T P t th metric event attr done
      unfold Plugin.register at hpush
      rw [if_pos hmem] at hpush
      exact hpush

theorem unknown (h : InSection P t L ⟨th, some (.find event attr)⟩ k)
    (hmem : t ∉ L.thread_event_buffers_) :
    InSection P t L ⟨th, some (.make_shared event attr)⟩ k := by
  cases h with
  | find => exact .make_shared hmem

theorem created (h : InSection P t L ⟨th, some (.make_shared event attr)⟩ k) :
    InSection P t { L with allocated := L.allocated + 1 }
      ⟨th, some (.insert event attr L.allocated)⟩ k := by
  cases h with
  | make_shared hmem => exact .insert hmem

theorem inserted {p : BufferPtr} (h : InSection P t L ⟨th, some (.insert event attr p)⟩ k) :
    InSection P t
      { L with thread_event_buffers_ := L.thread_event_buffers_.insert t (some p) }
      ⟨th.set_event_buffer (some p), some (.push_back event attr)⟩ k := by
  cases h with
  | @insert _ metric _ _ done hmem =>
      have hpush := @InSection.push_back T P t th metric event attr done
      unfold Plugin.register at hpush
      rw [if_neg hmem] at hpush
      exact hpush

/-- The position is the one the other model takes. -/
theorem pushed (h : InSection P t L ⟨th, some (.push_back event attr)⟩ k) :
    InSection P t { L with all_events_ := L.all_events_ ++ [(t, event)] }
      ⟨th, some (.unlock (Int32.ofNat L.all_events_.length) attr)⟩ k := by
  cases h with
  | @push_back th₀ metric _ _ done =>
      have hunlock := @InSection.unlock T P t th₀ metric event attr done
      rw [register_eq] at hunlock ⊢
      exact hunlock

end InSection

/-! ### Steps outside the section -/

section Next

variable {s s' : Locking T} {t : ThreadId}

/-- `event_open` keeps away from the handler. -/
theorem Thread.handler_event_open (th : Thread) (attr : PerfEventAttribute) (o : OpenOutcome) :
    (th.event_open g attr o).2.handler = th.handler := by
  have hopen : (th.perf_event_open attr o.fd).handler = th.handler := by
    unfold perf_event_open
    split
    case isTrue => rfl
    case isFalse => rfl
  rw [← hopen]
  dsimp only [event_open]
  -- one goal for each call that can fail
  split_ifs <;> rfl

/-- What a call comes to after the section. -/
theorem Locking.event_open_cases {o : OpenOutcome}
    (h : (lockingMachine g pfm buffer_size_ T).next s (.event_open t o) = some s') :
    ∃ th id attr, s.threads t = some ⟨th, some (.event_open id attr)⟩ ∧
      (((∃ ex, (th.event_open g attr o).1 = .error ex) ∧
          s' = s.set t (some ⟨(th.event_open g attr o).2, none⟩)) ∨
        ((th.event_open g attr o).1 = .ok () ∧
          s' = s.set t (some ⟨(th.event_open g attr o).2.enable, none⟩))) := by
  obtain ⟨⟨th, point⟩, hk, h⟩ := Option.bind_eq_some_iff.mp h
  dsimp only at h
  split at h
  case h_1 id attr =>
    refine ⟨th, id, attr, hk, ?_⟩
    split at h
    case h_1 ex th' hopen =>
      cases h
      exact Or.inl ⟨⟨ex, congrArg Prod.fst hopen⟩, by rw [hopen]⟩
    case h_2 th' hopen =>
      cases h
      exact Or.inr ⟨congrArg Prod.fst hopen, by rw [hopen]⟩
  case h_2 => cases h

end Next

/-! ### Where a thread is -/

namespace Locking.Refines

variable {s s' : Locking T} {a a' : Process T} {es es' : List LockingEvent}
variable {fs fs' : List ProcessEvent} {t : ThreadId} {th : Thread}

/-- A thread at a statement under the lock holds it. -/
theorem of_left_pos (h : s.Refines es fs a) {p : Point}
    (hk : s.threads t = some ⟨th, some p⟩) (hp : 0 < p.left) :
    s.buffer_mutex_ = some t ∧ ∃ k, a.threads t = some k ∧
      InSection a.plugin t s.plugin ⟨th, some p⟩ k := by
  by_cases hholds : s.buffer_mutex_ = some t
  · obtain ⟨c, k, hc, hk', hsection⟩ := h.holder t hholds
    cases hk.symm.trans hc
    exact ⟨hholds, k, hk', hsection⟩
  · have halike := h.outside t hholds
    rw [hk] at halike
    generalize a.threads t = k at halike
    cases halike with
    | some hck =>
        cases hck with
        | lock => exact absurd hp (Nat.lt_irrefl 0)
        | event_open => exact absurd hp (Nat.lt_irrefl 0)

/-- A thread at no such statement does not. -/
theorem of_left_eq_zero (h : s.Refines es fs a) {point : Option Point}
    (hk : s.threads t = some ⟨th, point⟩) (hp : point.elim 0 Point.left = 0) :
    s.buffer_mutex_ ≠ some t ∧ ∃ k, a.threads t = some k ∧ Alike ⟨th, point⟩ k := by
  have hnot : s.buffer_mutex_ ≠ some t := by
    intro hholds
    obtain ⟨c, k, hc, -, hsection⟩ := h.holder t hholds
    cases hk.symm.trans hc
    generalize s.plugin = P at hsection
    cases hsection with
    | _ => exact absurd hp (Nat.succ_ne_zero _)
  have halike := h.outside t hnot
  rw [hk] at halike
  cases hak : a.threads t with
  | none =>
      rw [hak] at halike
      cases halike
  | some k =>
      rw [hak] at halike
      cases halike with
      | some hck => exact ⟨hnot, k, rfl, hck⟩

/-! ### What the steps do to it -/

/-- A thread outside the lock takes the same step in both models. -/
theorem of_outside (h : s.Refines es fs a) {c' : Option Caller} {k' : Option Task}
    (hnot : s.buffer_mutex_ ≠ some t) (halike : Option.Rel Alike c' k')
    (hhandler : ∀ k, k' = some k → k.thread.handler = none)
    (hthreads : s'.threads = Function.update s.threads t c')
    (hthreads' : a'.threads = Function.update a.threads t k')
    (hmutex : s'.buffer_mutex_ = s.buffer_mutex_) (hplugin : s'.plugin = s.plugin)
    (hplugin' : a'.plugin = a.plugin)
    (hopened : ∀ fd, a'.opened fd ≠ none → fd ∈ descriptors es')
    (horder : registers fs' = sections es') : s'.Refines es' fs' a' where
  outside u hu := by
    rw [hthreads, hthreads']
    by_cases hut : u = t
    · subst hut
      rw [Function.update_self, Function.update_self]
      exact halike
    · rw [Function.update_of_ne hut, Function.update_of_ne hut]
      exact h.outside u (hmutex ▸ hu)
  holder u hu := by
    rw [hmutex] at hu
    have hut : u ≠ t := fun heq => hnot (heq ▸ hu)
    rw [hthreads, hthreads', hplugin, hplugin', Function.update_of_ne hut,
      Function.update_of_ne hut]
    exact h.holder u hu
  plugin hfree := by
    rw [hplugin, hplugin']
    exact h.plugin (hmutex ▸ hfree)
  handler u k hu := by
    rw [hthreads'] at hu
    by_cases hut : u = t
    · subst hut
      rw [Function.update_self] at hu
      exact hhandler k hu
    · rw [Function.update_of_ne hut] at hu
      exact h.handler u k hu
  opened := hopened
  order := horder

/-- The thread that holds the lock goes on in its section; in the other model, nothing has
happened yet. -/
theorem of_inside (h : s.Refines es fs a) {c' : Caller} {k : Task}
    (hmutex : ∀ u, s.buffer_mutex_ = some u → u = t) (hmutex' : s'.buffer_mutex_ = some t)
    (hk : a.threads t = some k) (hsection : InSection a.plugin t s'.plugin c' k)
    (hthreads : s'.threads = Function.update s.threads t (some c'))
    (hopened : ∀ fd ∈ descriptors es, fd ∈ descriptors es')
    (horder : sections es' = sections es) : s'.Refines es' fs a where
  outside u hu := by
    have hut : u ≠ t := fun heq => hu (heq ▸ hmutex')
    rw [hthreads, Function.update_of_ne hut]
    exact h.outside u fun hholds => hut (hmutex u hholds)
  holder u hu := by
    cases hmutex'.symm.trans hu
    exact ⟨c', k, by rw [hthreads, Function.update_self], hk, hsection⟩
  plugin hfree := by
    rw [hmutex'] at hfree
    cases hfree
  handler := h.handler
  opened fd hfd := hopened fd (h.opened fd hfd)
  order := h.order.trans horder.symm

variable (g pfm) in
/-- **The section is over**, and in the other model it has happened. -/
theorem of_unlock (h : s.Refines es fs a) {id : Int32} {attr : PerfEventAttribute}
    (hk : s.threads t = some ⟨th, some (.unlock id attr)⟩)
    (hopened : ∀ fd ∈ descriptors es, fd ∈ descriptors es')
    (horder : sections es' = sections es ++ [t]) :
    ∃ a', (processMachine g pfm T).next a (.register t) = some a' ∧
      ({ s with buffer_mutex_ := none }.set t (some ⟨th, some (.event_open id attr)⟩)).Refines es'
        (fs ++ [ProcessEvent.register t]) a' := by
  obtain ⟨hholds, k, hak, hsection⟩ := h.of_left_pos hk (Nat.succ_pos 0)
  generalize s.plugin = P at hsection ⊢
  cases hsection with
  | @unlock th₀ metric event _ done =>
      have hhandler := h.handler t _ hak
      refine ⟨_, Process.next_register hak hhandler rfl, ?_⟩
      refine ⟨fun u hu => ?_, fun u hu => ?_, fun _ => rfl, fun u j hu => ?_, fun fd hfd => ?_,
        ?_⟩
      · show Option.Rel Alike (Function.update s.threads t _ u) (Function.update a.threads t _ u)
        by_cases hut : u = t
        · subst hut
          rw [Function.update_self, Function.update_self]
          have hid : (a.plugin.register u event th₀).1 = (a.registration u metric event).id := by
            rw [register_eq]
            rfl
          rw [hid]
          exact .some .event_open
        · rw [Function.update_of_ne hut, Function.update_of_ne hut]
          exact h.outside u fun heq => hut (Option.some.inj (heq.symm.trans hholds))
      · cases hu
      · by_cases hut : u = t
        · subst hut
          cases (Process.set_threads_self _ u _).symm.trans hu
          rw [register_thread]
          exact hhandler
        · rw [Process.set_threads_ne _ _ hut] at hu
          exact h.handler u j hu
      · exact hopened fd (h.opened fd hfd)
      · rw [registers_append, h.order, horder]
        rfl

/-- **The call goes on after the section**, and returns or throws. -/
theorem of_event_open (h : s.Refines es fs a) {o : OpenOutcome}
    (hnext : (lockingMachine g pfm buffer_size_ T).next s (.event_open t o) = some s')
    (hfresh : o.fd ∉ descriptors es)
    (hopened : ∀ fd, fd ∈ descriptors es ∨ 0 ≤ o.fd ∧ fd = o.fd → fd ∈ descriptors es')
    (horder : sections es' = sections es) :
    ∃ gs a', (processMachine g pfm T).exec a gs = some a' ∧ s'.Refines es' (fs ++ gs) a' := by
  obtain ⟨th, id, attr, hk, hcase⟩ := Locking.event_open_cases hnext
  obtain ⟨hnot, k, hak, halike⟩ := h.of_left_eq_zero hk rfl
  have hhandler := h.handler t k hak
  have hnone : a.opened o.fd = none := by
    by_contra hsome
    exact hfresh (h.opened o.fd hsome)
  have hmem : ∀ (r : Registration) (fd : Fd), a.openedBy o r fd ≠ none →
      fd ∈ descriptors es' := by
    intro r fd hfd
    refine hopened fd ?_
    unfold Process.openedBy at hfd
    split at hfd
    case isTrue hnonneg =>
      by_cases heq : fd = o.fd
      · exact Or.inr ⟨hnonneg, heq⟩
      · rw [Function.update_of_ne heq] at hfd
        exact Or.inl (h.opened fd hfd)
    case isFalse => exact Or.inl (h.opened fd hfd)
  cases halike with
  | @event_open _ r _ done =>
      have hhandler' : (th.event_open g attr o).2.handler = none :=
        (Thread.handler_event_open th attr o).trans hhandler
      rcases hcase with ⟨⟨ex, hopen⟩, rfl⟩ | ⟨hopen, rfl⟩
      · refine ⟨[.event_open t o], _, (Machine.exec_singleton _ a _).trans
          (Process.next_event_open_error hak hhandler rfl hnone hopen), ?_⟩
        refine h.of_outside hnot (.some .idle) (fun j hj => ?_) rfl rfl rfl rfl rfl (hmem r) ?_
        · cases hj
          exact hhandler'
        · rw [registers_append, h.order, horder]
          exact List.append_nil _
      · obtain ⟨a₁, fds, hfirst, ha₁, hfds⟩ : ∃ a₁ fds,
            (processMachine g pfm T).next a (.event_open t o) = some a₁ ∧
            a₁ = { a with opened := a.openedBy o r }.set t
              ⟨(th.event_open g attr o).2, some (.enabling r o.fd fds), done⟩ ∧
            fds.foldl Thread.enable_fd (th.event_open g attr o).2
              = (th.event_open g attr o).2.enable :=
          ⟨_, _, Process.next_event_open hak hhandler rfl hnone hopen, rfl,
            Thread.foldl_enable_sorted _⟩
        have hrest : a₁.threads t
            = some ⟨(th.event_open g attr o).2, some (.enabling r o.fd fds), done⟩ := by
          rw [ha₁, Process.set_threads_self]
        have henable : (processMachine g pfm T).exec a₁ _ = some _ :=
          Process.exec_enable hrest hhandler' rfl
        rw [hfds] at henable
        refine ⟨.event_open t o :: List.replicate _ (.enable t), _,
          (Machine.exec_cons_eq_some _).mpr ⟨a₁, hfirst, henable⟩, ?_⟩
        refine h.of_outside hnot (.some (@Alike.idle _ true)) (fun j hj => ?_) rfl ?_ rfl rfl
          ?_ ?_ ?_
        · cases hj
          exact (congrArg Thread.handler (Thread.enable_eq _)).trans hhandler'
        · rw [ha₁]
          exact Function.update_idem ..
        · rw [ha₁]
          rfl
        · rw [ha₁]
          exact hmem r
        · rw [registers_append, h.order, horder]
          simp [registers]

/-- **Each statement is matched** by a step of the other model, by none, or by several. -/
theorem step {e : LockingEvent} (h : s.Refines es fs a) (hthrows : e.throws = false)
    (hfresh : (descriptors (es ++ [e])).Nodup)
    (hnext : (lockingMachine g pfm buffer_size_ T).next s e = some s') :
    ∃ gs a', (processMachine g pfm T).exec a gs = some a' ∧
      s'.Refines (es ++ [e]) (fs ++ gs) a' := by
  have hdescriptors : descriptors (es ++ [e]) = descriptors es ++ descriptors [e] :=
    List.filterMap_append
  have hsections : sections (es ++ [e]) = sections es ++ sections [e] := List.filterMap_append
  have hopened : ∀ fd ∈ descriptors es, fd ∈ descriptors (es ++ [e]) := by
    intro fd hfd
    rw [hdescriptors]
    exact List.mem_append_left _ hfd
  have hopened' : ∀ fd, a.opened fd ≠ none → fd ∈ descriptors (es ++ [e]) :=
    fun fd hfd => hopened fd (h.opened fd hfd)
  -- what a step comes to that the other model does not take
  have hskip : ∀ a', s'.Refines (es ++ [e]) fs a' → a' = a → ∃ gs a',
      (processMachine g pfm T).exec a gs = some a' ∧ s'.Refines (es ++ [e]) (fs ++ gs) a' := by
    rintro a' hrefines rfl
    exact ⟨[], a', rfl, by rwa [List.append_nil]⟩
  have hinside : ∀ {t : ThreadId} {th : Thread} {p : Point} {c' : Caller},
      s.threads t = some ⟨th, some p⟩ → 0 < p.left → sections [e] = [] →
      s'.buffer_mutex_ = s.buffer_mutex_ →
      s'.threads = Function.update s.threads t (some c') →
      (∀ k, InSection a.plugin t s.plugin ⟨th, some p⟩ k →
        InSection a.plugin t s'.plugin c' k) → ∃ gs a',
      (processMachine g pfm T).exec a gs = some a' ∧ s'.Refines (es ++ [e]) (fs ++ gs) a' := by
    intro t th p c' hk hp hnone hmutex hthreads hgoes
    obtain ⟨hholds, k, hak, hsection⟩ := h.of_left_pos hk hp
    refine hskip a (h.of_inside (fun u hu => ?_) (hmutex.trans hholds) hak (hgoes k hsection)
      hthreads hopened ?_) rfl
    · exact Option.some.inj (hu.symm.trans hholds)
    · rw [hsections, hnone, List.append_nil]
  cases Locking.step_of_next hnext with
  | @start t hnone =>
      have hnot : s.buffer_mutex_ ≠ some t := by
        intro hholds
        obtain ⟨c, k, hc, -⟩ := h.holder t hholds
        rw [hnone] at hc
        cases hc
      have hanone : a.threads t = none := by
        have halike := h.outside t hnot
        rw [hnone] at halike
        generalize a.threads t = k at halike ⊢
        cases halike with
        | none => rfl
      refine ⟨[.start t false], _, (Machine.exec_singleton _ a _).trans
        (Process.next_start false hanone), ?_⟩
      refine h.of_outside hnot (.some .idle) (fun k hk => ?_) rfl rfl rfl rfl rfl hopened' ?_
      · cases hk
        rfl
      · rw [registers_append, h.order, hsections]
        rfl
  | @exit t th hk =>
      obtain ⟨hnot, k, hak, halike⟩ := h.of_left_eq_zero hk rfl
      cases halike with
      | idle =>
          refine ⟨[.exit t], _, (Machine.exec_singleton _ a _).trans
            (Process.next_exit hak (h.handler t _ hak) rfl), ?_⟩
          refine h.of_outside hnot .none (fun k hk => by cases hk) rfl rfl rfl rfl rfl hopened' ?_
          rw [registers_append, h.order, hsections]
          rfl
  | refused =>
      refine hskip a { h with opened := hopened', order := ?_ } rfl
      rw [h.order, hsections]
      exact (List.append_nil _).symm
  | @called t th metric event attr hk hencode =>
      obtain ⟨hnot, k, hak, halike⟩ := h.of_left_eq_zero hk rfl
      have hhandler := h.handler t k hak
      cases halike with
      | idle =>
          refine ⟨[.call t metric], _, (Machine.exec_singleton _ a _).trans
            (Process.next_call hak hhandler rfl hencode), ?_⟩
          refine h.of_outside hnot (.some .lock) (fun k hk => ?_) rfl rfl rfl rfl rfl hopened' ?_
          · cases hk
            exact hhandler
          · rw [registers_append, h.order, hsections]
            rfl
  | @locked t th event attr hk hfree =>
      obtain ⟨-, k, hak, halike⟩ := h.of_left_eq_zero hk rfl
      cases halike with
      | lock =>
          refine hskip a (h.of_inside (fun u hu => ?_) rfl hak ?_ rfl hopened ?_) rfl
          · rw [hfree] at hu
            cases hu
          · show InSection a.plugin t s.plugin _ _
            rw [h.plugin hfree]
            exact .find
          · rw [hsections]
            exact List.append_nil _
  | known hk hmem =>
      exact hinside hk (Nat.succ_pos 4) rfl rfl rfl fun k hsection => hsection.known hmem
  | unknown hk hmem =>
      exact hinside hk (Nat.succ_pos 4) rfl rfl rfl fun k hsection => hsection.unknown hmem
  | created hk =>
      exact hinside hk (Nat.succ_pos 3) rfl rfl rfl fun k hsection => hsection.created
  | inserted hk =>
      exact hinside hk (Nat.succ_pos 2) rfl rfl rfl fun k hsection => hsection.inserted
  | pushed hk =>
      exact hinside hk (Nat.succ_pos 1) rfl rfl rfl fun k hsection => hsection.pushed
  | threw hthrew =>
      rw [hthrows] at hthrew
      cases hthrew
  | @unlocked t th id attr hk =>
      obtain ⟨a', hstep, hrefines⟩ := h.of_unlock g pfm hk hopened hsections
      exact ⟨[.register t], a', (Machine.exec_singleton _ a _).trans hstep, hrefines⟩
  | @opened t th th' id attr o hk =>
      have hmem : ∀ fd, fd ∈ descriptors es ∨ 0 ≤ o.fd ∧ fd = o.fd →
          fd ∈ descriptors (es ++ [.event_open t o]) := by
        rintro fd (hfd | ⟨hnonneg, rfl⟩)
        · exact hopened fd hfd
        · rw [hdescriptors]
          exact List.mem_append_right _ (by simp [descriptors, hnonneg])
      refine h.of_event_open hnext (fun hmem => ?_) hmem ?_
      · -- a descriptor that has been returned before
        have hnonneg := nonneg_of_mem_descriptors hmem
        rw [hdescriptors] at hfresh
        exact List.disjoint_of_nodup_append hfresh hmem (by simp [descriptors, hnonneg])
      · rw [hsections]
        exact List.append_nil _

end Locking.Refines

/-- The schedules that are matched: nothing throws under the lock, and no descriptor is
returned twice. -/
def Undisturbed (es : List LockingEvent) : Prop :=
  (∀ e ∈ es, e.throws = false) ∧ (descriptors es).Nodup

/-- **The locked section is one step.** -/
def sectionSimulation (g : Geometry) (pfm : Pfm) (buffer_size_ : UInt64) (T : TraceEvents) :
    Simulation (lockingMachine g pfm buffer_size_ T) (processMachine g pfm T) (.init T) (.init T)
      Undisturbed where
  rel := Locking.Refines
  init := {
    outside := fun _ _ => .none
    holder := fun _ h => nomatch h
    plugin := fun _ => rfl
    handler := fun _ _ h => nomatch h
    opened := fun _ h => absurd rfl h
    order := rfl }
  step _ _ hrel hP hnext := hrel.step (hP.1 _ (List.mem_append_right _ List.mem_cons_self))
    hP.2 hnext

/-- After an exception under the lock, the lock is never free again. -/
theorem Locking.not_throws_of_free {es : List LockingEvent} {s : Locking T}
    (hrun : (lockingMachine g pfm buffer_size_ T).exec (.init T) es = some s)
    (hfree : s.buffer_mutex_ = none) : ∀ e ∈ es, e.throws = false := by
  intro e he
  by_contra hthrows
  rw [Bool.not_eq_false] at hthrows
  obtain ⟨xs, ys, rfl⟩ := List.append_of_mem he
  obtain ⟨s₁, hfirst, hrest⟩ := (Machine.exec_append_eq_some _).mp hrun
  obtain ⟨s₂, hnext, hlater⟩ := (Machine.exec_cons_eq_some _).mp hrest
  have howned : s₁.Owned := .of_exec hfirst
  have hlost : s₂.Lost := by
    have hnot := Locking.not_released_of_throws howned hthrows hnext
    simp only [Locking.Released, not_forall, Nat.not_lt, Nat.le_zero] at hnot
    obtain ⟨t, hholds, hzero⟩ := hnot
    exact ⟨t, hholds, hzero⟩
  obtain ⟨-, t, hholds, -⟩ : s.Owned ∧ s.Lost :=
    (lockingMachine g pfm buffer_size_ T).exec_preserves (I := fun s => s.Owned ∧ s.Lost)
      (fun _ _ _ hinv hnext => ⟨(Locking.turn_of_next hnext).owned hinv.1,
        (Locking.turn_of_next hnext).lost hinv.1 hinv.2⟩)
      ⟨(Locking.turn_of_next hnext).owned howned, hlost⟩ hlater
  rw [hfree] at hholds
  cases hholds

/-- **The locked section is atomic.**  Take the statements of `add_metric` one by one, on any
number of threads and in any order.  Whenever the lock is free, the plugin and the members of
every thread are as a run leaves them that takes each section in one step, in the order in
which the threads have unlocked.  `perf_event_open` is to return each descriptor at most once,
since none is closed. -/
theorem section_atomic {es : List LockingEvent} {s : Locking T}
    (hrun : (lockingMachine g pfm buffer_size_ T).exec (.init T) es = some s)
    (hfree : s.buffer_mutex_ = none) (hfresh : (descriptors es).Nodup) :
    ∃ fs a, (processMachine g pfm T).exec (.init T) fs = some a ∧
      registers fs = sections es ∧ a.plugin = s.plugin ∧
      ∀ t, (a.threads t).map Task.thread = (s.threads t).map Caller.thread := by
  have hearlier : ∀ (es : List LockingEvent) e, Undisturbed (es ++ [e]) → Undisturbed es := by
    rintro es e ⟨hthrows, hnodup⟩
    refine ⟨fun f hf => hthrows f (List.mem_append_left _ hf), ?_⟩
    rw [descriptors, List.filterMap_append] at hnodup
    exact hnodup.of_append_left
  obtain ⟨fs, a, hexec, hrefines⟩ := (sectionSimulation g pfm buffer_size_ T).exec hearlier
    ⟨Locking.not_throws_of_free hrun hfree, hfresh⟩ hrun
  refine ⟨fs, a, hexec, hrefines.order, (hrefines.plugin hfree).symm, fun t => ?_⟩
  have halike := hrefines.outside t (hfree ▸ (Option.some_ne_none t).symm)
  generalize s.threads t = c at halike ⊢
  generalize a.threads t = k at halike ⊢
  cases halike with
  | none => rfl
  | some hck => exact congrArg some hck.thread_eq

/-- Two threads add a metric each; the second waits for the first, which opens its event
meanwhile. -/
def twoSections : List LockingEvent :=
  inTurn ++ [.event_open ⟨1⟩ (.success 3 fun _ => 0), .unlock ⟨2⟩,
    .event_open ⟨2⟩ (.success 4 fun _ => 0)]

theorem section_atomic_two_sections :
    ∃ fs a s, (lockingMachine .x86 .intel 5000000 .perf).exec (.init .perf) twoSections = some s ∧
      (processMachine .x86 .intel .perf).exec (.init .perf) fs = some a ∧
      registers fs = [⟨1⟩, ⟨2⟩] ∧ a.plugin = s.plugin := by
  have hlast : ((lockingMachine .x86 .intel 5000000 .perf).exec (.init .perf) twoSections).map
      (fun s => s.buffer_mutex_) = some none := by decide +kernel
  obtain ⟨s, hrun, hfree⟩ := Option.map_eq_some_iff.mp hlast
  obtain ⟨fs, a, hexec, horder, hplugin, -⟩ := section_atomic hrun hfree (by decide)
  exact ⟨fs, a, s, hrun, hexec, horder, hplugin⟩

end AccessSampling
