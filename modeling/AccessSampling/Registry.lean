import AccessSampling.Process

/-!
# The registry of metrics

A metric id is a position of `all_events_`, and the entry there leads to an event
buffer through `thread_event_buffers_`.

* `get_all_values` — what is read out for an id.  The class of the event buffers
  belongs to the trace library; `EventRingBuffer` is what the plugin relies on.
* `Process.Registry` — the invariant of the two containers and of the calls of
  `add_metric` under way.
* `registry_integrity` — ids are distinct, entries and buffers stay, and
  `get_all_values` finds its way from any id, whatever other threads do, and whichever
  calls fail.

**What is asked of `EventRingBuffer`** is little, since its source is that of another
library: as long as nothing has been overwritten, iterating over a buffer yields what has been
appended to it, in order.  Whatever it yields later, the id leads to the right buffer.

**The bound of 2^31 calls** is the range of `int32_t`: the id is a position that is
narrowed on its way into the result of `add_metric`, and widened again where `get_all_values`
subscripts with it.  A call that finds 2^31 metrics in the list would return a negative id.
-/

namespace AccessSampling

open Foundation

/-! ### Reading out -/

/-- What the plugin relies on of `EventRingBuffer`: as long as no more events are
appended than a buffer has room for, iterating over it yields them in order. -/
structure EventRingBuffer (T : TraceEvents) where
  /-- What a buffer of some capacity yields after some events have been appended. -/
  iterate : ℕ → List (AccessEvent T) → List (AccessEvent T)
  iterate_of_le : ∀ capacity events, events.length ≤ capacity →
    iterate capacity events = events

/-- A buffer that keeps the last events, as many as it has room for. -/
def EventRingBuffer.last (T : TraceEvents) : EventRingBuffer T where
  iterate capacity events := events.drop (events.length - capacity)
  iterate_of_le capacity events h := by
    rw [Nat.sub_eq_zero_of_le h]
    rfl

/-- What a call of `get_all_values` comes to. -/
inductive ReadOut where
  /-- The id is outside `all_events_`. -/
  | outside
  | throws (e : Exception)
  /-- `Invalid thread buffer` -/
  | invalid
  /-- What is written to the cursor. -/
  | writes (values : List (UInt64 × UInt64))

/-- How many values are written. -/
def ReadOut.count : ReadOut → ℕ
  | .writes values => values.length
  | _ => 0

/-- A signed number as a subscript. -/
def subscript (id : Int32) : ℕ := (id.toInt % 2 ^ 64).toNat

section Registry

variable {T : TraceEvents}

/-- The times and addresses of the events of one type. -/
def valuesOf (event_type : T.AccessType) (events : List (AccessEvent T)) :
    List (UInt64 × UInt64) :=
  (events.filter fun event => event_type = event.access_type).map fun event =>
    (event.time, event.address)

/-- `access_sampling::get_all_values`. -/
def get_all_values (B : EventRingBuffer T) (buffer_size_ : ℕ) (P : Plugin T) (id : Int32) :
    ReadOut :=
  match P.all_events_[subscript id]? with
  | none => .outside
  | some (tid, metric) =>
      match P.thread_event_buffers_.lookup tid with
      | none => .throws (.out_of_range "map::at")
      | some none => .invalid
      | some (some p) =>
          let event_type := T.accessTypeFromString metric
          let event_buffer := B.iterate buffer_size_ ((P.heap p).map Entry.event)
          .writes (valuesOf event_type event_buffer)

theorem subscript_ofNat {n : ℕ} (h : n < 2 ^ 31) : subscript (Int32.ofNat n) = n := by
  have hmod : (n : ℤ) % 2 ^ 64 = n :=
    Int.emod_eq_of_lt (Int.natCast_nonneg n) (by exact_mod_cast h.trans (by decide))
  rw [subscript, Int32.toInt_ofNat_of_lt h, hmod]
  rfl

/-! ### The invariant -/

/-- A registration is in the registry. -/
structure Process.Registered (s : Process T) (r : Registration) : Prop where
  entry : s.plugin.all_events_[r.index]? = some (r.tid, r.event)
  id : r.id = Int32.ofNat r.index
  parsed : ∃ period, parse_metric r.metric = .ok (r.event, period)

/-- What holds of a call of `add_metric` by the thread `t`. -/
def Process.CallOk (s : Process T) (t : ThreadId) : Option Frame → Prop
  | none => True
  | some (.encoded metric event _) => ∃ period, parse_metric metric = .ok (event, period)
  | some (.registered r _) | some (.enabling r _ _) =>
      r.tid = t ∧ s.Registered r ∧ ∀ x ∈ s.returned, x.1.index ≠ r.index

/-- **The invariant of the registry.** -/
structure Process.Registry (s : Process T) : Prop where
  buffer : ∀ x ∈ s.plugin.all_events_,
    ∃ p, s.plugin.thread_event_buffers_.lookup x.1 = some (some p)
  allocated : ∀ t b, s.plugin.thread_event_buffers_.lookup t = some b →
    ∃ p < s.plugin.allocated, b = some p
  injective : ∀ t u b, s.plugin.thread_event_buffers_.lookup t = some b →
    s.plugin.thread_event_buffers_.lookup u = some b → t = u
  calls : ∀ t k, s.threads t = some k → s.CallOk t k.call
  returned : ∀ x ∈ s.returned, s.Registered x.1
  nodup : (s.returned.map fun x => x.1.index).Nodup

section Steps

variable {g : Geometry} {pfm : Pfm} {s s' : Process T} {e : ProcessEvent}

theorem Process.Registered.of_extends {r : Registration} (h : s.Registered r)
    (hext : s.Extends s') : s'.Registered r :=
  ⟨hext.getElem? h.entry, h.id, h.parsed⟩

/-- A registration is at its own position. -/
theorem Process.Registered.index_lt {r : Registration} (h : s.Registered r) :
    r.index < s.plugin.all_events_.length :=
  (List.getElem?_eq_some_iff.mp h.entry).1

/-- Two registrations at one position belong to one thread. -/
theorem Process.Registered.tid_eq {r r' : Registration} (h : s.Registered r)
    (h' : s.Registered r') (hindex : r.index = r'.index) : r.tid = r'.tid := by
  have hentry := h.entry
  rw [hindex, h'.entry] at hentry
  exact (congrArg Prod.fst (Option.some.inj hentry)).symm

theorem parse_metric_of_encode {metric event : List Char} {attr : PerfEventAttribute}
    (h : encode pfm metric = .ok (event, attr)) :
    ∃ period, parse_metric metric = .ok (event, period) := by
  obtain ⟨period, hparse, -⟩ := encode_eq_ok.mp h
  exact ⟨period, hparse⟩

/-- A call goes on being what it was when others register, and when others return. -/
theorem Process.CallOk.of_extends {t : ThreadId} {call : Option Frame} (h : s.CallOk t call)
    (hext : s.Extends s') (hreturned : ∀ r, r.tid = t → s.Registered r →
      ∀ x ∈ s'.returned, x ∈ s.returned ∨ x.1.index ≠ r.index) : s'.CallOk t call := by
  have hpending : ∀ r : Registration,
      (r.tid = t ∧ s.Registered r ∧ ∀ x ∈ s.returned, x.1.index ≠ r.index) →
      r.tid = t ∧ s'.Registered r ∧ ∀ x ∈ s'.returned, x.1.index ≠ r.index := by
    rintro r ⟨htid, hr, hfresh⟩
    refine ⟨htid, hr.of_extends hext, fun x hx => ?_⟩
    rcases hreturned r htid hr x hx with hx | hne
    · exact hfresh x hx
    · exact hne
  cases call with
  | none => trivial
  | some f =>
      cases f with
      | encoded metric event attr => exact h
      | registered r attr => exact hpending r h
      | enabling r fd fds => exact hpending r h

/-- What a map holds under a key, once it has been given another. -/
theorem lookup_insert_cases {t u : ThreadId} {b c : Option BufferPtr}
    {m : AList fun _ : ThreadId => Option BufferPtr}
    (h : (m.insert t c).lookup u = some b) :
    (u = t ∧ b = c) ∨ (u ≠ t ∧ m.lookup u = some b) := by
  by_cases hut : u = t
  · subst hut
    rw [AList.lookup_insert] at h
    exact Or.inl ⟨rfl, (Option.some.inj h).symm⟩
  · rw [AList.lookup_insert_ne hut] at h
    exact Or.inr ⟨hut, h⟩

namespace Process.Registry

theorem init (T : TraceEvents) : (Process.init T).Registry where
  buffer x hx := by cases hx
  allocated t b hb := by cases hb
  injective t u b hb := by cases hb
  calls t k hk := by cases hk
  returned x hx := by cases hx
  nodup := List.nodup_nil

/-- A step that touches neither container, and by which no call returns. -/
theorem of_same (h : s.Registry) (hext : s.Extends s')
    (hall : s'.plugin.all_events_ = s.plugin.all_events_)
    (hbuffers : s'.plugin.thread_event_buffers_ = s.plugin.thread_event_buffers_)
    (hallocated : s'.plugin.allocated = s.plugin.allocated)
    (hreturned : s'.returned = s.returned)
    (hcalls : ∀ t k, s'.threads t = some k → s.CallOk t k.call) : s'.Registry where
  buffer := by
    rw [hall, hbuffers]
    exact h.buffer
  allocated := by
    rw [hbuffers, hallocated]
    exact h.allocated
  injective := by
    rw [hbuffers]
    exact h.injective
  calls t k hk := (hcalls t k hk).of_extends hext fun _ _ _ x hx => Or.inl (hreturned ▸ hx)
  returned := by
    rw [hreturned]
    exact fun x hx => (h.returned x hx).of_extends hext
  nodup := hreturned ▸ h.nodup

/-- The new metric of the locked section is at the end of `all_events_`. -/
theorem registered_registration {t : ThreadId} {metric event : List Char}
    (hparse : ∃ period, parse_metric metric = .ok (event, period))
    (hall : s'.plugin.all_events_ = s.plugin.all_events_ ++ [(t, event)]) :
    s'.Registered (s.registration t metric event) := by
  refine ⟨?_, rfl, hparse⟩
  rw [hall]
  exact List.getElem?_concat_length

/-- **The locked section.**  The map has the thread's id afterwards, and it has not lost
a buffer. -/
theorem of_register (h : s.Registry) {t : ThreadId} {k k' : Task} {metric event : List Char}
    {attr : PerfEventAttribute} (hk : s.threads t = some k)
    (hcall : k.call = some (.encoded metric event attr)) (hext : s.Extends s')
    (hall : s'.plugin.all_events_ = s.plugin.all_events_ ++ [(t, event)])
    (hself : ∃ p, s'.plugin.thread_event_buffers_.lookup t = some (some p))
    (hallocated : ∀ u b, s'.plugin.thread_event_buffers_.lookup u = some b →
      ∃ p < s'.plugin.allocated, b = some p)
    (hinjective : ∀ t u b, s'.plugin.thread_event_buffers_.lookup t = some b →
      s'.plugin.thread_event_buffers_.lookup u = some b → t = u)
    (hreturned : s'.returned = s.returned)
    (hcall' : k'.call = some (.registered (s.registration t metric event) attr))
    (hthreads : s'.threads = Function.update s.threads t (some k')) : s'.Registry := by
  refine ⟨fun x hx => ?_, hallocated, hinjective, fun u j hu => ?_, fun x hx => ?_,
    hreturned ▸ h.nodup⟩
  · rw [hall, List.mem_append] at hx
    rcases hx with hx | hx
    · obtain ⟨p, hp⟩ := h.buffer x hx
      exact ⟨p, hext.buffers x.1 _ hp⟩
    · cases List.mem_singleton.mp hx
      exact hself
  · rw [hthreads] at hu
    by_cases hut : u = t
    · subst hut
      rw [Function.update_self] at hu
      cases hu
      rw [hcall']
      have hparse : s.CallOk u k.call := h.calls u k hk
      rw [hcall] at hparse
      refine ⟨rfl, registered_registration hparse hall, fun x hx => ?_⟩
      exact (h.returned x (hreturned ▸ hx)).index_lt.ne
    · rw [Function.update_of_ne hut] at hu
      exact (h.calls u j hu).of_extends hext fun _ _ _ x hx => Or.inl (hreturned ▸ hx)
  · exact (h.returned x (hreturned ▸ hx)).of_extends hext

/-- A call returns. -/
theorem of_returned (h : s.Registry) {t : ThreadId} {k : Task} {r : Registration} {fd : Fd}
    (hk : s.threads t = some k) (hcall : k.call = some (.enabling r fd []))
    (hext : s.Extends s') (hreturned : s'.returned = s.returned ++ [(r, fd)])
    (hplugin : s'.plugin = s.plugin)
    (hthreads : s'.threads = Function.update s.threads t (some ⟨k.thread, none, true⟩)) :
    s'.Registry := by
  have hr : s.CallOk t k.call := h.calls t k hk
  rw [hcall] at hr
  obtain ⟨htid, hregistered, hfresh⟩ := hr
  refine ⟨hplugin ▸ h.buffer, hplugin ▸ h.allocated, hplugin ▸ h.injective, fun u j hu => ?_,
    fun x hx => ?_, ?_⟩
  · rw [hthreads] at hu
    by_cases hut : u = t
    · subst hut
      rw [Function.update_self] at hu
      cases hu
      trivial
    · rw [Function.update_of_ne hut] at hu
      refine (h.calls u j hu).of_extends hext fun r' htid' h' x hx => ?_
      rw [hreturned, List.mem_append] at hx
      rcases hx with hx | hx
      · exact Or.inl hx
      · -- two calls under way are at different positions
        cases List.mem_singleton.mp hx
        exact Or.inr fun hindex =>
          hut (htid'.symm.trans ((h'.tid_eq hregistered hindex.symm).trans htid))
  · rw [hreturned, List.mem_append] at hx
    rcases hx with hx | hx
    · exact (h.returned x hx).of_extends hext
    · cases List.mem_singleton.mp hx
      exact hregistered.of_extends hext
  · rw [hreturned, List.map_append, List.map_cons, List.map_nil, List.nodup_append_comm,
      List.singleton_append, List.nodup_cons]
    refine ⟨fun hmem => ?_, h.nodup⟩
    obtain ⟨x, hx, hindex⟩ := List.mem_map.mp hmem
    exact hfresh x hx hindex

/-- **Every step keeps the registry.** -/
theorem step (h : s.Registry) (hstep : Process.Step g pfm s e s') : s'.Registry := by
  have hext := hstep.extends
  cases hstep with
  | start blocked hnone =>
      exact h.of_same hext rfl rfl rfl rfl (Process.forall_set h.calls trivial)
  | exit => exact h.of_same hext rfl rfl rfl rfl (Process.forall_erase h.calls)
  | refused => exact h
  | called hk hhandler hcall hencode =>
      exact h.of_same hext rfl rfl rfl rfl
        (Process.forall_set h.calls (parse_metric_of_encode hencode))
  | @known t k metric event attr hk hhandler hcall hmem =>
      obtain ⟨b, hb⟩ := Option.isSome_iff_exists.mp (AList.lookup_isSome.mpr hmem)
      obtain ⟨p, -, rfl⟩ := h.allocated t b hb
      exact h.of_register hk hcall hext rfl ⟨p, hb⟩ h.allocated h.injective rfl rfl rfl
  | @added t k metric event attr hk hhandler hcall hmem =>
      refine h.of_register hk hcall hext rfl ⟨_, AList.lookup_insert _⟩ ?_ ?_ rfl rfl rfl
      · intro u b hb
        rcases lookup_insert_cases hb with ⟨rfl, rfl⟩ | ⟨-, hb⟩
        · exact ⟨s.plugin.allocated, Nat.lt_succ_self _, rfl⟩
        · obtain ⟨p, hp, rfl⟩ := h.allocated u b hb
          exact ⟨p, Nat.lt_succ_of_lt hp, rfl⟩
      · intro u v b hu hv
        -- the buffer of another thread is one that was allocated before
        have hold : ∀ w, s.plugin.thread_event_buffers_.lookup w
            ≠ some (some s.plugin.allocated) := by
          intro w hw
          obtain ⟨p, hp, heq⟩ := h.allocated w _ hw
          exact hp.ne (Option.some.inj heq).symm
        rcases lookup_insert_cases hu with ⟨rfl, rfl⟩ | ⟨-, hu'⟩
        · rcases lookup_insert_cases hv with ⟨rfl, -⟩ | ⟨-, hv'⟩
          · rfl
          · exact absurd hv' (hold v)
        · rcases lookup_insert_cases hv with ⟨rfl, rfl⟩ | ⟨-, hv'⟩
          · exact absurd hu' (hold u)
          · exact h.injective u v b hu' hv'
  | failed hk hhandler hcall hfresh hopen =>
      exact h.of_same hext rfl rfl rfl rfl (Process.forall_set h.calls trivial)
  | @opened t k r attr o hk hhandler hcall hfresh hopen =>
      have hr : s.CallOk t k.call := h.calls t k hk
      rw [hcall] at hr
      exact h.of_same hext rfl rfl rfl rfl (Process.forall_set h.calls hr)
  | @enabled t k r fd x fds hk hhandler hcall =>
      have hr : s.CallOk t k.call := h.calls t k hk
      rw [hcall] at hr
      exact h.of_same hext rfl rfl rfl rfl (Process.forall_set h.calls hr)
  | returned hk hhandler hcall => exact h.of_returned hk hcall hext rfl rfl rfl
  | @stopped t k hk hhandler hcall =>
      exact h.of_same hext rfl rfl rfl rfl (Process.forall_set h.calls (h.calls t k hk))
  | @sampled t k e x hk hnext =>
      exact h.of_same hext rfl rfl rfl rfl (Process.forall_set h.calls (h.calls t k hk))

end Process.Registry

/-! ### How many metrics there are -/

/-- `n` calls have been made: those that have registered their metric, and at least
those of the threads in a list, which are yet to do so. -/
def Process.Counted (n : ℕ) (s : Process T) : Prop :=
  ∃ ts : List ThreadId, s.plugin.all_events_.length + ts.length ≤ n ∧
    ∀ t k, s.threads t = some k →
      (∃ metric event attr, k.call = some (.encoded metric event attr)) → t ∈ ts

/-- A step by which nothing is registered, and which leaves its thread elsewhere. -/
theorem Process.Counted.set {n : ℕ} {t : ThreadId} {k k' : Task} (h : s.Counted n)
    (hall : s'.plugin.all_events_ = s.plugin.all_events_) (hk : s.threads t = some k)
    (hthreads : s'.threads = Function.update s.threads t (some k'))
    (hcall : ∀ metric event attr, k'.call = some (.encoded metric event attr) →
      k.call = some (.encoded metric event attr)) : s'.Counted n := by
  obtain ⟨ts, hlen, hts⟩ := h
  refine ⟨ts, hall ▸ hlen, fun u j hu => ?_⟩
  rintro ⟨metric, event, attr, hj⟩
  rw [hthreads] at hu
  by_cases hut : u = t
  · subst hut
    rw [Function.update_self] at hu
    cases hu
    exact hts u k hk ⟨metric, event, attr, hcall metric event attr hj⟩
  · rw [Function.update_of_ne hut] at hu
    exact hts u j hu ⟨metric, event, attr, hj⟩

/-- The locked section. -/
theorem Process.Counted.register {n : ℕ} {t : ThreadId} {k k' : Task}
    {metric event : List Char} {attr : PerfEventAttribute} {r : Registration}
    (h : s.Counted n) (hall : s'.plugin.all_events_ = s.plugin.all_events_ ++ [(t, event)])
    (hk : s.threads t = some k) (hcall : k.call = some (.encoded metric event attr))
    (hcall' : k'.call = some (.registered r attr))
    (hthreads : s'.threads = Function.update s.threads t (some k')) : s'.Counted n := by
  obtain ⟨ts, hlen, hts⟩ := h
  have ht : t ∈ ts := hts t k hk ⟨metric, event, attr, hcall⟩
  have herase := List.length_erase_of_mem ht
  have hpos := List.length_pos_of_mem ht
  refine ⟨ts.erase t, ?_, fun u j hu => ?_⟩
  · rw [hall, List.length_append, List.length_singleton]
    omega
  · rintro ⟨metric', event', attr', hj⟩
    rw [hthreads] at hu
    by_cases hut : u = t
    · subst hut
      rw [Function.update_self] at hu
      cases hu
      rw [hcall'] at hj
      cases hj
    · rw [Function.update_of_ne hut] at hu
      exact (List.mem_erase_of_ne hut).mpr (hts u j hu ⟨metric', event', attr', hj⟩)

theorem Process.Counted.step {n : ℕ} (h : s.Counted n) (hstep : Process.Step g pfm s e s') :
    s'.Counted (n + if e.isCall then 1 else 0) := by
  cases hstep with
  | start blocked hnone =>
      obtain ⟨ts, hlen, hts⟩ := h
      refine ⟨ts, hlen, Process.forall_set hts ?_⟩
      rintro ⟨metric, event, attr, hcall⟩
      cases hcall
  | exit =>
      obtain ⟨ts, hlen, hts⟩ := h
      exact ⟨ts, hlen, Process.forall_erase hts⟩
  | refused =>
      obtain ⟨ts, hlen, hts⟩ := h
      exact ⟨ts, Nat.le_succ_of_le hlen, hts⟩
  | @called t k metric event attr hk =>
      obtain ⟨ts, hlen, hts⟩ := h
      refine ⟨t :: ts, Nat.succ_le_succ hlen, ?_⟩
      exact Process.forall_set (fun u j hu hj => List.mem_cons_of_mem t (hts u j hu hj))
        fun _ => List.mem_cons_self
  | known hk hhandler hcall hmem => exact h.register rfl hk hcall rfl rfl
  | added hk hhandler hcall hmem => exact h.register rfl hk hcall rfl rfl
  | failed hk => exact h.set rfl hk rfl fun _ _ _ hcall => by cases hcall
  | opened hk => exact h.set rfl hk rfl fun _ _ _ hcall => by cases hcall
  | enabled hk => exact h.set rfl hk rfl fun _ _ _ hcall => by cases hcall
  | returned hk => exact h.set rfl hk rfl fun _ _ _ hcall => by cases hcall
  | stopped hk => exact h.set rfl hk rfl fun _ _ _ hcall => hcall
  | sampled hk => exact h.set rfl hk rfl fun _ _ _ hcall => hcall

/-- **There are at most as many metrics as there have been calls.** -/
theorem Process.length_le_calls {es : List ProcessEvent} {s : Process T}
    (h : (processMachine g pfm T).exec (.init T) es = some s) :
    s.plugin.all_events_.length ≤ es.countP ProcessEvent.isCall := by
  suffices hcounted : s.Counted (es.countP ProcessEvent.isCall) by
    obtain ⟨ts, hlen, -⟩ := hcounted
    omega
  induction es using List.reverseRecOn generalizing s with
  | nil =>
      cases h
      exact ⟨[], Nat.le_refl _, fun t k hk => by cases hk⟩
  | append_singleton es e ih =>
      obtain ⟨s₁, hrun, hnext⟩ := (Machine.exec_concat_eq_some _).mp h
      have hstep := (ih hrun).step (Process.step_of_next hnext)
      rwa [List.countP_append, List.countP_singleton]

/-! ### The result -/

theorem Process.Registry.of_exec {es : List ProcessEvent}
    (h : (processMachine g pfm T).exec (.init T) es = some s) : s.Registry :=
  (processMachine g pfm T).exec_preserves
    (fun _ _ _ hinv hnext => hinv.step (Process.step_of_next hnext)) (.init T) h

/-- What `get_all_values` comes to for a registered metric. -/
theorem get_all_values_eq (B : EventRingBuffer T) (buffer_size_ : ℕ) {r : Registration}
    {p : BufferPtr} (hr : s.Registered r) (hindex : r.index < 2 ^ 31)
    (hp : s.plugin.thread_event_buffers_.lookup r.tid = some (some p)) :
    get_all_values B buffer_size_ s.plugin r.id = .writes
      (valuesOf (T.accessTypeFromString r.event)
        (B.iterate buffer_size_ ((s.plugin.heap p).map Entry.event))) := by
  rw [get_all_values, hr.id, subscript_ofNat hindex, hr.entry]
  simp only [hp]

/-- **Registry integrity.**  Fewer than 2^31 calls of `add_metric`, on any threads, in any
order of their steps, and some of them failing: at any time, and at any later time,

* the ids of the calls that have returned are distinct;
* the entry of `all_events_` for each is the thread that has called and the event part
  of its metric;
* every thread id that occurs there has a buffer, which is not null and which no other
  thread id has; and a thread id keeps its buffer;
* `get_all_values` of each id stays inside `all_events_`, and finds a buffer: it writes
  what that of the calling thread has of the access type of the metric's event. -/
theorem registry_integrity {es fs : List ProcessEvent}
    (hrun : (processMachine g pfm T).exec (.init T) es = some s)
    (hlater : (processMachine g pfm T).exec s fs = some s')
    (hcalls : (es ++ fs).countP ProcessEvent.isCall < 2 ^ 31) :
    (s.returned.map fun x => x.1.id).Nodup ∧
    (∀ x ∈ s.returned, (∃ period, parse_metric x.1.metric = .ok (x.1.event, period)) ∧
      s'.plugin.all_events_[subscript x.1.id]? = some (x.1.tid, x.1.event)) ∧
    (∀ x ∈ s'.plugin.all_events_,
      ∃ p, s'.plugin.thread_event_buffers_.lookup x.1 = some (some p)) ∧
    (∀ t b, s.plugin.thread_event_buffers_.lookup t = some b → b ≠ none ∧
      s'.plugin.thread_event_buffers_.lookup t = some b ∧
      ∀ u, s'.plugin.thread_event_buffers_.lookup u = some b → u = t) ∧
    ∀ x ∈ s.returned, ∃ p, s'.plugin.thread_event_buffers_.lookup x.1.tid = some (some p) ∧
      ∀ (B : EventRingBuffer T) buffer_size_, get_all_values B buffer_size_ s'.plugin x.1.id
        = .writes (valuesOf (T.accessTypeFromString x.1.event)
            (B.iterate buffer_size_ ((s'.plugin.heap p).map Entry.event))) := by
  have hrun' : (processMachine g pfm T).exec (.init T) (es ++ fs) = some s' :=
    (Machine.exec_append_eq_some _).mpr ⟨s, hrun, hlater⟩
  have h : s.Registry := .of_exec hrun
  have h' : s'.Registry := .of_exec hrun'
  have hext : s.Extends s' := Process.exec_extends hlater
  have hbound : s'.plugin.all_events_.length < 2 ^ 31 :=
    (Process.length_le_calls hrun').trans_lt hcalls
  have hregistered : ∀ x ∈ s.returned, s'.Registered x.1 ∧ x.1.index < 2 ^ 31 := by
    intro x hx
    have hx' := (h.returned x hx).of_extends hext
    exact ⟨hx', hx'.index_lt.trans hbound⟩
  refine ⟨?_, fun x hx => ?_, h'.buffer, fun t b hb => ?_, fun x hx => ?_⟩
  · refine List.Nodup.of_map subscript ?_
    have hindex : (s.returned.map fun x => x.1.id).map subscript
        = s.returned.map fun x => x.1.index := by
      rw [List.map_map]
      refine List.map_congr_left fun x hx => ?_
      obtain ⟨hx', hlt⟩ := hregistered x hx
      show subscript x.1.id = x.1.index
      rw [hx'.id, subscript_ofNat hlt]
    rw [hindex]
    exact h.nodup
  · obtain ⟨hx', hlt⟩ := hregistered x hx
    rw [hx'.id, subscript_ofNat hlt]
    exact ⟨hx'.parsed, hx'.entry⟩
  · have hb' := hext.buffers t b hb
    obtain ⟨p, -, rfl⟩ := h.allocated t b hb
    exact ⟨Option.some_ne_none p, hb', fun u hu => h'.injective u t _ hu hb'⟩
  · obtain ⟨hx', hlt⟩ := hregistered x hx
    obtain ⟨p, hp⟩ := h'.buffer _ (List.mem_of_getElem? hx'.entry)
    exact ⟨p, hp, fun B buffer_size_ => get_all_values_eq B buffer_size_ hx' hlt hp⟩

end Steps

end Registry

/-- Two threads add a metric each, at the same time; the second cannot configure its
event. -/
def twoThreads : List ProcessEvent :=
  [.start ⟨1⟩ false, .start ⟨2⟩ false, .call ⟨1⟩ "Load@1000".toList,
    .call ⟨2⟩ "Store@2000".toList, .register ⟨2⟩, .register ⟨1⟩,
    .event_open ⟨2⟩ { OpenOutcome.success 3 (fun _ => 0) with setfl := false },
    .event_open ⟨1⟩ (.success 4 fun _ => 0), .enable ⟨1⟩, .enable ⟨1⟩]

set_option maxRecDepth 10000 in
/-- The second thread tries again later. -/
theorem registry_integrity_two_threads :
    ∃ s s' : Process .perf,
      (processMachine .x86 .intel .perf).exec (.init .perf) twoThreads = some s ∧
      (processMachine .x86 .intel .perf).exec s
        (addSteps ⟨2⟩ "STORE@2000".toList (.success 5 fun _ => 0) 2) = some s' ∧
      s.returned.map (fun x => x.1.id) = [1] ∧ s'.returned.map (fun x => x.1.id) = [1, 2] ∧
      ∀ x ∈ s.returned, s'.plugin.all_events_[subscript x.1.id]? = some (x.1.tid, x.1.event) := by
  have hids : ((processMachine .x86 .intel .perf).exec (.init .perf) twoThreads).map
      (fun s => s.returned.map fun x => x.1.id) = some [1] := by decide +kernel
  have hids' : ((processMachine .x86 .intel .perf).exec (.init .perf) (twoThreads ++
      addSteps ⟨2⟩ "STORE@2000".toList (.success 5 fun _ => 0) 2)).map
        (fun s => s.returned.map fun x => x.1.id) = some [1, 2] := by decide +kernel
  obtain ⟨s, hrun, hs⟩ := Option.map_eq_some_iff.mp hids
  obtain ⟨s', hrun', hs'⟩ := Option.map_eq_some_iff.mp hids'
  obtain ⟨s₁, hfirst, hlater⟩ := (Machine.exec_append_eq_some _).mp hrun'
  cases hfirst.symm.trans hrun
  have hintegrity := registry_integrity hrun hlater (by decide)
  exact ⟨s, s', hrun, hlater, hs, hs', fun x hx => (hintegrity.2.1 x hx).2⟩

end AccessSampling
