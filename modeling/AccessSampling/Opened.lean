import AccessSampling.Drain

/-!
# A thread with open events

`Thread.opened` is what a new thread has become after one successful `event_open` and
one `enable` for each of a list of descriptors.  Each has a ring of its own, which
holds nothing, and an event that is enabled and sends `SIGPROF`.
-/

namespace AccessSampling

open Foundation

/-- Descriptors that `perf_event_open` can have returned one after the other. -/
structure Descriptors where
  fds : List Fd
  nodup : fds.Nodup
  pos : ∀ fd ∈ fds, 1 ≤ fd

theorem event_success_notifies {fd : Fd} (hfd : 1 ≤ fd) (attr : PerfEventAttribute)
    (data : ℕ → UInt8) : ((OpenOutcome.success fd data).event attr).notifies = true := by
  simp [OpenOutcome.success, OpenOutcome.event, OpenOutcome.mapped, PerfEvent.notifies, hfd]

namespace Thread

/-- A thread that has opened and enabled one event after the other, the first of the
list last, and whose samples go to the buffer `p`. -/
def opened (g : Geometry) (attr : Fd → PerfEventAttribute) (data : Fd → ℕ → UInt8)
    (p : BufferPtr) : List Fd → Thread
  | [] => Thread.new.set_event_buffer (some p)
  | fd :: fds =>
      ((opened g attr data p fds).event_open g (attr fd) (.success fd (data fd))).2.enable

section Opened

variable {g : Geometry} {attr : Fd → PerfEventAttribute} {data : Fd → ℕ → UInt8}
variable {p : BufferPtr}

/-- The event behind a descriptor of `opened`. -/
def openedEvent (attr : Fd → PerfEventAttribute) (data : Fd → ℕ → UInt8) (fd : Fd) :
    PerfEvent :=
  { (OpenOutcome.success fd (data fd)).event (attr fd) with enabled := true }

/-- What `opened` has made of a new thread. -/
structure IsOpened (g : Geometry) (attr : Fd → PerfEventAttribute) (data : Fd → ℕ → UInt8)
    (p : BufferPtr) (fds : List Fd) (th : Thread) : Prop where
  rings : ∀ x, th.ring_buffers_.lookup x = if x ∈ fds then some (.new g) else none
  events : ∀ x, th.events x = if x ∈ fds then some (openedEvent attr data x) else none
  event_data_ : th.event_data_ = some p
  blocked : th.blocked = false
  pending : th.pending = none
  handler : th.handler = none

theorem IsOpened.mem_rings_iff {fds : List Fd} {th : Thread}
    (h : IsOpened g attr data p fds th) {fd : Fd} :
    fd ∈ th.ring_buffers_ ↔ fd ∈ fds := by
  rw [← AList.lookup_isSome, h.rings]
  by_cases hfd : fd ∈ fds
  · simp [hfd]
  · simp [hfd]

theorem isOpened_opened {fds : List Fd} (hnodup : fds.Nodup) (hpos : ∀ fd ∈ fds, 1 ≤ fd) :
    IsOpened g attr data p fds (opened g attr data p fds) := by
  induction fds with
  | nil =>
      exact ⟨fun _ => AList.lookup_empty _, fun _ => by simp [opened, Thread.new,
        set_event_buffer], rfl, rfl, rfl, rfl⟩
  | cons fd fds ih =>
      obtain ⟨hnew, hnodup⟩ := List.nodup_cons.mp hnodup
      have hfd : 1 ≤ fd := hpos fd List.mem_cons_self
      have h := ih hnodup fun x hx => hpos x (List.mem_cons_of_mem fd hx)
      have hmem : ∀ x, x ∈ (opened g attr data p fds).ring_buffers_ ↔ x ∈ fds :=
        fun x => h.mem_rings_iff
      have hmapped : (OpenOutcome.success fd (data fd)).mapped = true := by
        simp [OpenOutcome.success, OpenOutcome.mapped, hfd]
      have hnonneg : 0 ≤ (OpenOutcome.success fd (data fd)).fd := hfd.trans' (by decide)
      have hopen : ((opened g attr data p fds).event_open g (attr fd)
          (.success fd (data fd))).2 = _ := event_open_thread (mt (hmem fd).mp hnew)
      rw [hmapped, if_pos rfl, if_pos hnonneg] at hopen
      have hring : ∀ x, (opened g attr data p (fd :: fds)).ring_buffers_.lookup x
          = if x ∈ fd :: fds then some (PerfRingBuffer.new g) else none := by
        intro x
        rw [opened, hopen, enable_eq]
        by_cases hx : x = fd
        · subst hx
          rw [if_pos List.mem_cons_self]
          exact AList.lookup_insert _
        · rw [AList.lookup_insert_ne (by exact hx), h.rings]
          simp [hx]
      refine ⟨hring, fun x => ?_, ?_, ?_, ?_, ?_⟩
      · rw [opened, hopen, events_enable]
        simp only [AList.mem_insert, hmem, List.mem_cons]
        by_cases hx : x = fd
        · subst hx
          simp [openedEvent, OpenOutcome.success]
        · have hne : x ≠ (OpenOutcome.success fd (data fd)).fd := hx
          rw [Function.update_of_ne hne, h.events]
          by_cases hmem : x ∈ fds
          · simp [hmem, openedEvent]
          · simp [hmem, hx]
      · rw [opened, hopen, enable_eq]
        exact h.event_data_
      · rw [opened, hopen, enable_eq]
        exact h.blocked
      · rw [opened, hopen, enable_eq]
        exact h.pending
      · rw [opened, hopen, enable_eq]
        exact h.handler

namespace IsOpened

variable {fds : List Fd} {th : Thread}

/-- Every ring is there, and holds nothing. -/
theorem at_of_mem (h : IsOpened g attr data p fds th) {fd : Fd} (hfd : fd ∈ fds)
    (hpos : 1 ≤ fd) : th.At g fd (.new g) (openedEvent attr data fd) 0 := by
  refine ⟨by rw [h.rings, if_pos hfd], by rw [h.events, if_pos hfd], ?_⟩
  refine Reading.new (data fd) ?_ rfl
  simp [openedEvent, OpenOutcome.success, OpenOutcome.event, OpenOutcome.mapped, hpos]

end IsOpened

end Opened

end Thread

end AccessSampling
