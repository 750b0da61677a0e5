import AccessSampling.AddMetric
import AccessSampling.ParseMetric
import AccessSampling.TraceDirectory

/-!
# The trace dump

The destructor of the plugin finds a directory, starts one thread for each event buffer, and
waits for all of them.  Each thread writes its buffer into a file of its own.

* `convert_thread_id`, `file_name` — how a file gets its name: a thread id is printed, read
  back as a number, and printed again.
* `dumpMachine` — the destructor and the threads it has started, one step of any of them
  after another.
* `write_event_buffer_spec` — what one step of one thread does.
* `Dumping` — what holds meanwhile: each file is as far as its thread has come, and nothing
  else has changed.  Every step keeps it, and leaves less to do (`dump_step`).
* `dumped_of_exec` — how far any order of steps gets, and what is there at the end.
* `trace_dump` — whichever order the threads run in, the directory ends up the same.
* `finalisation_iff` — when the destructor gets as far as starting them.

### What can go wrong

An exception that leaves a thread, or the destructor, terminates the process, and three
things could throw.  Finding the directory is the subject of `finalisation_iff`.  The other two
are excluded by hypotheses where threads write:

* `hexecuting` — `convert_thread_id` reads back what was printed of a thread id, and of an id
  whose handle is zero, that of no thread, no number is printed.
* `hfree` — the name of a trace may be taken already.  A file of that name is replaced, but a
  directory cannot be opened for writing.

What the file system was like is looked at *after* `create_trace_directory`: that the
directory itself may be new is not counted as a change made by the dump.

The threads write files of different names (`path_inj`), and this is all that keeps them from
interfering: there is no lock.
-/

namespace AccessSampling

open Foundation

/-! ### The names of the files -/

/-- What `operator<<` prints of a thread id. -/
def ThreadId.print (tid : ThreadId) : List Char :=
  if tid.handle = 0 then "thread::id of a non-executing thread".toList
  else Nat.toDigits 10 tid.handle.toNat

/-- `std::stoull` in base ten. -/
def stoull (str : List Char) : Except Exception UInt64 :=
  match scan str with
  | (negative, digits) =>
      if digits = [] then .error (.invalid_argument "stoull")
      else if 2 ^ 64 ≤ decimal digits then .error (.out_of_range "stoull")
      else .ok (if negative then -UInt64.ofNat (decimal digits) else UInt64.ofNat (decimal digits))

def convert_thread_id (tid : ThreadId) : Except Exception UInt64 := stoull tid.print

/-- `trace.<n>.bin` -/
def file_name (n : UInt64) : FileName :=
  "trace.".toList ++ (Nat.toDigits 10 n.toNat ++ ".bin".toList)

theorem decimal_toDigits (n : ℕ) : decimal (Nat.toDigits 10 n) = n := Nat.ofDigitChars_ten_toDigits

/-- The id of a thread that is executing is its handle. -/
theorem convert_thread_id_eq {tid : ThreadId} (h : tid.handle ≠ 0) :
    convert_thread_id tid = .ok tid.handle := by
  have hdigit : ∀ c ∈ Nat.toDigits 10 tid.handle.toNat, c.isDigit := fun c hc =>
    Nat.isDigit_of_mem_toDigits (by decide) (by decide) hc
  have hlt := tid.handle.toNat_lt
  rw [convert_thread_id, ThreadId.print, if_neg h, stoull]
  simp only [scan_digits hdigit, decimal_toDigits]
  rw [if_neg Nat.toDigits_ne_nil, if_neg (by omega)]
  simp

theorem file_name_inj {n m : UInt64} : file_name n = file_name m ↔ n = m := by
  constructor
  · intro h
    have hdigits := List.append_cancel_right (List.append_cancel_left h)
    have hnat := congrArg decimal hdigits
    rw [decimal_toDigits, decimal_toDigits] at hnat
    exact UInt64.toNat_inj.mp hnat
  · exact congrArg file_name

theorem properName_file_name (n : UInt64) : ProperName (file_name n) where
  ne_nil := List.append_ne_nil_of_left_ne_nil (by decide) _
  ne_dot h := absurd (show some 't' = some '.' from congrArg List.head? h) (by decide)
  ne_dotdot h := absurd (show some 't' = some '.' from congrArg List.head? h) (by decide)
  no_slash h := by
    have hmem : '/' ∈ "trace.".toList ++ (Nat.toDigits 10 n.toNat ++ ".bin".toList) := h
    rw [List.mem_append, List.mem_append] at hmem
    rcases hmem with h | h | h
    · exact absurd h (by decide)
    · exact absurd (Nat.isDigit_of_mem_toDigits (by decide) (by decide) h) (by decide)
    · exact absurd h (by decide)

/-! ### The destructor and its threads -/

/-- What the plugin uses of the files of the trace library: a file is opened for writing,
and what is then written, piece by piece, makes it hold an event buffer and its meta
data. -/
structure TraceFile (T : TraceEvents) (κ : Type) where
  MetaData : Type
  metaData : List (AccessEvent T) → ThreadId → MetaData
  opened : κ
  writes : List (AccessEvent T) → MetaData → List (κ → κ)
  contents : List (AccessEvent T) → MetaData → κ
  foldl_writes : ∀ event_buffer md,
    (writes event_buffer md).foldl (fun c w => w c) opened = contents event_buffer md

/-- Where a thread is in `write_event_buffer`: before the file is open, between two writes,
or at the end. -/
inductive Progress (κ : Type) where
  | started
  | writing (loc : Location) (rest : List (κ → κ))
  | ended

/-- An event buffer to be written, and whose it is. -/
structure Job (T : TraceEvents) where
  tid : ThreadId
  event_buffer : List (AccessEvent T)

/-- A thread that runs `write_event_buffer`, with the arguments it has been given. -/
structure Worker (T : TraceEvents) (κ : Type) extends Job T where
  trace_dir : List Char
  progress : Progress κ

/-- Where the destructor is. -/
inductive Destructor where
  | entered
  | spawning (trace_dir : List Char) (rest : List ((_ : ThreadId) × Option BufferPtr))
  | joining (joined : ℕ)
  | ended

structure Dump (T : TraceEvents) (κ : Type) where
  fs : FileSystem κ
  destructor : Destructor
  workers : List (Worker T κ)
  /-- `std::terminate` has been called. -/
  terminated : Bool

/-- The next step is one of the destructor, or of the thread it has started as number
`i`. -/
inductive DumpEvent where
  | destructor
  | worker (i : ℕ)

section Steps

variable {T : TraceEvents} {κ : Type} (F : TraceFile T κ)

/-- One step of `write_event_buffer`.  `none` at its end, and `some none` when it throws. -/
def Worker.write_event_buffer (fs : FileSystem κ) (w : Worker T κ) :
    Option (Option (FileSystem κ × Worker T κ)) :=
  match w.progress with
  | .started =>
      match convert_thread_id w.tid with
      | .error _ => some none
      | .ok n =>
          some ((fs.create (path_append w.trace_dir (file_name n)) F.opened).map fun (loc, fs') =>
            let md := F.metaData w.event_buffer w.tid
            (fs', { w with progress := .writing loc (F.writes w.event_buffer md) }))
  | .writing loc (write :: rest) =>
      some (some (fs.write loc write, { w with progress := .writing loc rest }))
  | .writing _ [] => some (some (fs, { w with progress := .ended }))
  | .ended => none

/-- One step of `~access_sampling`.  It is not enabled while the thread that is to be joined
has not ended. -/
def Dump.destruct (path_string : Option (List Char)) (P : Plugin T) (s : Dump T κ) :
    Option (Dump T κ) :=
  match s.destructor with
  | .entered =>
      match create_trace_directory path_string s.fs with
      -- an exception that leaves a destructor
      | .error _ => some { s with terminated := true }
      | .ok (trace_dir, fs') =>
          some { s with
            fs := fs'
            destructor := .spawning trace_dir P.thread_event_buffers_.entries }
  | .spawning trace_dir (⟨tid, some buffer⟩ :: rest) =>
      some { s with
        workers := s.workers ++ [⟨⟨tid, (P.heap buffer).map Entry.event⟩, trace_dir, .started⟩]
        destructor := .spawning trace_dir rest }
  | .spawning trace_dir (⟨_, none⟩ :: rest) =>
      some { s with destructor := .spawning trace_dir rest }
  | .spawning _ [] => some { s with destructor := .joining 0 }
  | .joining joined =>
      match s.workers[joined]? with
      | none => some { s with destructor := .ended }
      | some w =>
          match w.progress with
          | .ended => some { s with destructor := .joining (joined + 1) }
          | _ => none
  | .ended => none

/-- One step of the destructor, or of one of its threads. -/
def Dump.next (path_string : Option (List Char)) (P : Plugin T) (s : Dump T κ) :
    DumpEvent → Option (Dump T κ)
  | .destructor => if s.terminated then none else s.destruct path_string P
  | .worker i =>
      if s.terminated then none
      else (s.workers[i]?).bind fun w => (w.write_event_buffer F s.fs).map fun
        | none => { s with terminated := true }
        | some (fs', w') => { s with fs := fs', workers := s.workers.set i w' }

/-- The destructor has been entered. -/
def Dump.begin (T : TraceEvents) (fs : FileSystem κ) : Dump T κ := ⟨fs, .entered, [], false⟩

/-- The destructor and its threads, as a machine. -/
def dumpMachine (path_string : Option (List Char)) (P : Plugin T) : Machine (Dump T κ) DumpEvent :=
  ⟨Dump.next F path_string P⟩

end Steps

/-! ### One thread -/

section Worker

variable {T : TraceEvents} {κ : Type} {F : TraceFile T κ} {fs fs' : FileSystem κ}
variable {loc : Location} {w : Worker T κ}

/-- Where the file of a buffer is, in a directory. -/
def Job.path (j : Job T) (loc : Location) : Location := file_name j.tid.handle :: loc

/-- What the file of a buffer is to hold. -/
def Job.trace (F : TraceFile T κ) (j : Job T) : κ :=
  F.contents j.event_buffer (F.metaData j.event_buffer j.tid)

/-- A file is as far as the thread that writes it has come. -/
def Progress.Sound (F : TraceFile T κ) (loc : Location) (fs : FileSystem κ) (j : Job T) :
    Progress κ → Prop
  | .started => True
  | .writing l rest => l = j.path loc ∧ ∃ c, fs.tree.node (j.path loc) = some (.file c) ∧
      rest.foldl (fun c w => w c) c = j.trace F
  | .ended => fs.tree.node (j.path loc) = some (.file (j.trace F))

/-- The steps a thread has left. -/
def Progress.left (F : TraceFile T κ) (j : Job T) : Progress κ → ℕ
  | .started => (F.writes j.event_buffer (F.metaData j.event_buffer j.tid)).length + 2
  | .writing _ rest => rest.length + 1
  | .ended => 0

/-- What the other threads do to other files does not matter. -/
theorem Progress.Sound.frame {j : Job T} {progress : Progress κ}
    (h : progress.Sound F loc fs j)
    (hframe : fs'.tree.node (j.path loc) = fs.tree.node (j.path loc)) :
    progress.Sound F loc fs' j := by
  cases progress with
  | started => trivial
  | writing l rest =>
      obtain ⟨hl, c, hnode, hfold⟩ := h
      exact ⟨hl, c, hframe.trans hnode, hfold⟩
  | ended => exact hframe.trans h

/-- **One step of a thread** changes its own file, and brings it where it should be. -/
theorem write_event_buffer_spec (hresolve : fs.resolve w.trace_dir = some loc)
    (hdir : fs.tree.node loc = some .dir) (hexecuting : w.tid.handle ≠ 0)
    (hfree : fs.tree.node (w.path loc) ≠ some .dir)
    (hsound : w.progress.Sound F loc fs w.toJob) :
    w.progress = .ended ∨
    ∃ fs' progress, w.write_event_buffer F fs = some (some (fs', { w with progress := progress })) ∧
      fs.Touches fs' (w.path loc) ∧ fs'.tree.node (w.path loc) ≠ some .dir ∧
      progress.Sound F loc fs' w.toJob ∧
      progress.left F w.toJob < w.progress.left F w.toJob := by
  obtain ⟨j, trace_dir, progress⟩ := w
  cases progress with
  | started =>
      refine Or.inr ?_
      obtain ⟨fs', hcreate, htouches, hnode⟩ := FileSystem.create_append hresolve hdir
        (properName_file_name j.tid.handle) hfree F.opened
      refine ⟨fs', .writing (j.path loc) _, ?_, htouches, ?_,
        ⟨rfl, F.opened, hnode, F.foldl_writes _ _⟩, Nat.lt_succ_self _⟩
      · simp only [Worker.write_event_buffer, convert_thread_id_eq hexecuting, hcreate]
        rfl
      · rw [Job.path, hnode]
        simp
  | writing l rest =>
      refine Or.inr ?_
      obtain ⟨hl, c, hnode, hfold⟩ := hsound
      cases rest with
      | nil =>
          refine ⟨fs, .ended, rfl, ⟨.refl fs, fun _ => rfl⟩, hfree, ?_, Nat.zero_lt_one⟩
          exact hnode.trans (congrArg (some <| Node.file ·) hfold)
      | cons write rest =>
          have hnode' := FileSystem.node_write hnode write
          refine ⟨fs.write l write, .writing l rest, rfl, hl ▸ fs.touches_write l write, ?_,
            ⟨hl, write c, ?_, hfold⟩, Nat.lt_succ_self _⟩
          · rw [hl, hnode']
            simp
          · rw [hl, hnode']
  | ended => exact Or.inl rfl

end Worker

/-! ### The dump -/

/-- The threads that some entries of `thread_event_buffers_` lead to: one for each buffer
that is not null. -/
def Plugin.jobs {T : TraceEvents} (P : Plugin T)
    (entries : List ((_ : ThreadId) × Option BufferPtr)) : List (Job T) :=
  entries.filterMap fun e => e.2.map fun buffer => ⟨e.1, (P.heap buffer).map Entry.event⟩

/-- All of them. -/
def Plugin.traces {T : TraceEvents} (P : Plugin T) : List (Job T) :=
  P.jobs P.thread_event_buffers_.entries

/-- The steps that are still to be taken for some entries: one to look at each, and for a
thread its own and one to join it. -/
def Plugin.steps {T : TraceEvents} {κ : Type} (F : TraceFile T κ) (P : Plugin T)
    (entries : List ((_ : ThreadId) × Option BufferPtr)) : ℕ :=
  entries.length + ((P.jobs entries).map fun j => Progress.started.left F j + 1).sum

section Jobs

variable {T : TraceEvents} {P : Plugin T} {j j' : Job T} {loc : Location}

theorem jobs_cons_some (tid : ThreadId) (buffer : BufferPtr)
    (rest : List ((_ : ThreadId) × Option BufferPtr)) :
    P.jobs (⟨tid, some buffer⟩ :: rest)
      = ⟨tid, (P.heap buffer).map Entry.event⟩ :: P.jobs rest := rfl

theorem jobs_cons_none (tid : ThreadId) (rest : List ((_ : ThreadId) × Option BufferPtr)) :
    P.jobs (⟨tid, none⟩ :: rest) = P.jobs rest := rfl

theorem mem_traces : j ∈ P.traces ↔ ∃ buffer,
    P.thread_event_buffers_.lookup j.tid = some (some buffer) ∧
      j.event_buffer = (P.heap buffer).map Entry.event := by
  simp only [Plugin.traces, Plugin.jobs, List.mem_filterMap, Option.map_eq_some_iff]
  constructor
  · rintro ⟨⟨tid, _⟩, hentry, buffer, rfl, rfl⟩
    exact ⟨buffer, AList.mem_lookup_iff.mpr hentry, rfl⟩
  · rintro ⟨buffer, hlookup, hbuffer⟩
    exact ⟨⟨j.tid, some buffer⟩, AList.mem_lookup_iff.mp hlookup, buffer, rfl, by rw [← hbuffer]⟩

theorem tid_mem_of_mem_traces (h : j ∈ P.traces) : j.tid ∈ P.thread_event_buffers_ := by
  obtain ⟨buffer, hlookup, -⟩ := mem_traces.mp h
  exact AList.lookup_isSome.mp (Option.isSome_of_eq_some hlookup)

/-- No two threads write the buffer of the same thread. -/
theorem nodup_tid_traces (P : Plugin T) : (P.traces.map Job.tid).Nodup := by
  have hsublist : ∀ entries : List ((_ : ThreadId) × Option BufferPtr),
      ((P.jobs entries).map Job.tid).Sublist entries.keys := by
    intro entries
    induction entries with
    | nil => exact .slnil
    | cons e entries ih =>
        obtain ⟨tid, _ | buffer⟩ := e
        · exact ih.cons tid
        · exact ih.cons_cons tid
  exact (hsublist _).nodup P.thread_event_buffers_.nodupKeys

/-- Each thread has a file of its own. -/
theorem path_inj : j.path loc = j'.path loc ↔ j.tid = j'.tid := by
  constructor
  · obtain ⟨⟨handle⟩, event_buffer⟩ := j
    obtain ⟨⟨handle'⟩, event_buffer'⟩ := j'
    intro h
    exact congrArg ThreadId.mk (file_name_inj.mp (List.cons.inj h).1)
  · intro h
    rw [Job.path, Job.path, h]

end Jobs

/-- Where the destructor is, with respect to the entries that are left and the threads that
have been started. -/
def Destructor.At {T : TraceEvents} {κ : Type} (trace_dir : List Char)
    (rest : List ((_ : ThreadId) × Option BufferPtr)) (workers : List (Worker T κ)) :
    Destructor → Prop
  | .entered => False
  | .spawning dir rest' => dir = trace_dir ∧ rest' = rest
  | .joining joined => rest = [] ∧ ∀ w ∈ workers.take joined, w.progress = .ended
  | .ended => rest = [] ∧ ∀ w ∈ workers, w.progress = .ended

/-- A directory in which the traces can be written: the path leads to it, and no directory
has the name of a trace, which is named after a thread that has been executing. -/
structure Site {T : TraceEvents} {κ : Type} (P : Plugin T) (trace_dir : List Char) (loc : Location)
    (fs : FileSystem κ) : Prop where
  resolve : fs.resolve trace_dir = some loc
  dir : fs.tree.node loc = some .dir
  executing : ∀ tid ∈ P.thread_event_buffers_, tid.handle ≠ 0
  free : ∀ j ∈ P.traces, fs.tree.node (j.path loc) ≠ some .dir

/-- **The dump under way.**  The file of each thread is as far as the thread has come, no
directory has come into the way of one, and nothing else has changed. -/
structure Dumping {T : TraceEvents} {κ : Type} (F : TraceFile T κ) (P : Plugin T)
    (trace_dir : List Char) (loc : Location) (fs : FileSystem κ) (s : Dump T κ) : Prop where
  alive : s.terminated = false
  grows : fs.Grows s.fs
  free : ∀ j ∈ P.traces, s.fs.tree.node (j.path loc) ≠ some .dir
  frame : ∀ l, (∀ j ∈ P.traces, l ≠ j.path loc) → s.fs.tree.node l = fs.tree.node l
  sound : ∀ w ∈ s.workers, w.trace_dir = trace_dir ∧ w.progress.Sound F loc s.fs w.toJob
  started : ∃ rest, P.traces = s.workers.map Worker.toJob ++ P.jobs rest ∧
    s.destructor.At trace_dir rest s.workers

/-- The steps that are left, of the destructor and of the threads. -/
def Dump.left {T : TraceEvents} {κ : Type} (F : TraceFile T κ) (P : Plugin T) (s : Dump T κ) : ℕ :=
  (s.workers.map fun w => w.progress.left F w.toJob).sum +
    match s.destructor with
    | .entered => P.steps F P.thread_event_buffers_.entries + 3
    | .spawning _ rest => P.steps F rest + s.workers.length + 2
    | .joining joined => s.workers.length - joined + 1
    | .ended => 0

section Dumping

variable {T : TraceEvents} {κ : Type} {F : TraceFile T κ} {P : Plugin T}
variable {path_string : Option (List Char)} {trace_dir : List Char} {loc : Location}
variable {fs : FileSystem κ} {s s' : Dump T κ}

/-- The destructor goes on once it has a directory. -/
theorem next_begin (F : TraceFile T κ) (P : Plugin T) {fs' : FileSystem κ}
    (hcreate : create_trace_directory path_string fs = .ok (trace_dir, fs')) :
    (Dump.begin T fs).next F path_string P .destructor
      = some ⟨fs', .spawning trace_dir P.thread_event_buffers_.entries, [], false⟩ := by
  simp only [Dump.next, Dump.destruct, Dump.begin, hcreate]
  rfl

/-- Once there is a directory, the threads can be started. -/
theorem dumping_start {fs' : FileSystem κ}
    (hcreate : create_trace_directory path_string fs = .ok (trace_dir, fs'))
    (hsite : Site P trace_dir loc fs')
    (hnext : (Dump.begin T fs).next F path_string P .destructor = some s') :
    Dumping F P trace_dir loc fs' s' ∧ s'.left F P < (Dump.begin T fs).left F P := by
  cases (next_begin F P hcreate).symm.trans hnext
  refine ⟨⟨rfl, .refl fs', hsite.free, fun _ _ => rfl, List.forall_mem_nil _, _, rfl, rfl, rfl⟩, ?_⟩
  simp only [Dump.left, Dump.begin, List.length_nil]
  omega

/-- A step of the destructor, on its way through the entries and the threads. -/
theorem Dumping.destruct (h : Dumping F P trace_dir loc fs s)
    (hnext : s.destruct path_string P = some s') :
    Dumping F P trace_dir loc fs s' ∧ s'.left F P < s.left F P := by
  obtain ⟨rest, htraces, hat⟩ := h.started
  unfold Dump.destruct at hnext
  split at hnext
  case h_1 hentered =>
    rw [hentered] at hat
    exact hat.elim
  case h_2 dir tid buffer rest' hspawning =>
    cases hnext
    rw [hspawning] at hat
    obtain ⟨rfl, rfl⟩ := hat
    rw [jobs_cons_some] at htraces
    refine ⟨⟨h.alive, h.grows, h.free, h.frame, ?_, rest', ?_, rfl, rfl⟩, ?_⟩
    · intro w hw
      rcases List.mem_append.mp hw with hw | hw
      · exact h.sound w hw
      · rw [List.mem_singleton.mp hw]
        exact ⟨rfl, trivial⟩
    · rw [htraces, List.map_append, List.append_assoc]
      rfl
    · simp only [Dump.left, hspawning, Plugin.steps, jobs_cons_some, List.map_append, List.map_cons,
        List.map_nil, List.sum_append, List.sum_cons, List.sum_nil, List.length_append,
        List.length_cons, List.length_nil]
      omega
  case h_3 dir tid rest' hspawning =>
    cases hnext
    rw [hspawning] at hat
    obtain ⟨rfl, rfl⟩ := hat
    rw [jobs_cons_none] at htraces
    refine ⟨⟨h.alive, h.grows, h.free, h.frame, h.sound, rest', htraces, rfl, rfl⟩, ?_⟩
    simp only [Dump.left, hspawning, Plugin.steps, jobs_cons_none, List.length_cons]
    omega
  case h_4 dir hspawning =>
    cases hnext
    rw [hspawning] at hat
    obtain ⟨rfl, rfl⟩ := hat
    refine ⟨⟨h.alive, h.grows, h.free, h.frame, h.sound, [], htraces, rfl,
      List.forall_mem_nil _⟩, ?_⟩
    simp only [Dump.left, hspawning]
    omega
  case h_5 joined hjoining =>
    rw [hjoining] at hat
    obtain ⟨rfl, hjoined⟩ := hat
    split at hnext
    case h_1 hlast =>
      cases hnext
      have hall := List.getElem?_eq_none_iff.mp hlast
      rw [List.take_of_length_le hall] at hjoined
      refine ⟨⟨h.alive, h.grows, h.free, h.frame, h.sound, [], htraces, rfl, hjoined⟩, ?_⟩
      simp only [Dump.left, hjoining]
      omega
    case h_2 w hw =>
      split at hnext
      case h_1 hended =>
        cases hnext
        refine ⟨⟨h.alive, h.grows, h.free, h.frame, h.sound, [], htraces, rfl, ?_⟩, ?_⟩
        · intro w' hw'
          rw [List.take_add_one, hw, List.mem_append] at hw'
          rcases hw' with hw' | hw'
          · exact hjoined w' hw'
          · obtain rfl : w' = w := by simpa using hw'
            exact hended
        · have hlt := (List.getElem?_eq_some_iff.mp hw).1
          simp only [Dump.left, hjoining]
          omega
      case h_2 => cases hnext
  case h_6 => cases hnext

/-- Among the threads that have been started, one is at position `i`. -/
theorem exists_split {α : Type} {l : List α} {i : ℕ} {a : α} (h : l[i]? = some a) :
    ∃ as bs, l = as ++ a :: bs ∧ ∀ b, l.set i b = as ++ b :: bs := by
  obtain ⟨hlt, rfl⟩ := List.getElem?_eq_some_iff.mp h
  refine ⟨l.take i, l.drop (i + 1), ?_, fun b => List.set_eq_take_append_cons_drop.trans ?_⟩
  · rw [List.getElem_cons_drop, List.take_append_drop]
  · exact if_pos hlt

/-- A thread that has been started is one of those that are to be, and it goes on. -/
theorem Dumping.goes (hsite : Site P trace_dir loc fs)
    (h : Dumping F P trace_dir loc fs s) {w : Worker T κ} (hmem : w ∈ s.workers)
    (hrunning : w.progress ≠ .ended) :
    w.toJob ∈ P.traces ∧ ∃ fs' progress,
      w.write_event_buffer F s.fs = some (some (fs', { w with progress := progress })) ∧
      s.fs.Touches fs' (w.path loc) ∧ fs'.tree.node (w.path loc) ≠ some .dir ∧
      progress.Sound F loc fs' w.toJob ∧ progress.left F w.toJob < w.progress.left F w.toJob := by
  obtain ⟨rest, htraces, -⟩ := h.started
  have hjob : w.toJob ∈ P.traces := by
    rw [htraces]
    exact List.mem_append_left _ (List.mem_map_of_mem hmem)
  obtain ⟨htrace_dir, hsound⟩ := h.sound w hmem
  have hresolve : s.fs.resolve w.trace_dir = some loc :=
    htrace_dir ▸ h.grows.resolve hsite.resolve
  have hspec := write_event_buffer_spec hresolve (h.grows.tree.dir hsite.dir)
    (hsite.executing _ (tid_mem_of_mem_traces hjob)) (h.free _ hjob) hsound
  exact ⟨hjob, hspec.resolve_left hrunning⟩

/-- A step of one of the threads. -/
theorem Dumping.worker (hsite : Site P trace_dir loc fs)
    (h : Dumping F P trace_dir loc fs s) {i : ℕ} {w : Worker T κ} (hw : s.workers[i]? = some w)
    {r : Option (FileSystem κ × Worker T κ)} (hstep : w.write_event_buffer F s.fs = some r) :
    ∃ fs' w', r = some (fs', w') ∧
      Dumping F P trace_dir loc fs { s with fs := fs', workers := s.workers.set i w' } ∧
      ({ s with fs := fs', workers := s.workers.set i w' } : Dump T κ).left F P < s.left F P := by
  obtain ⟨as, bs, hworkers, hset⟩ := exists_split hw
  obtain ⟨rest, htraces, hat⟩ := h.started
  have hmem : w ∈ s.workers := List.mem_of_getElem? hw
  have hrunning : w.progress ≠ .ended := by
    intro hended
    rw [Worker.write_event_buffer, hended] at hstep
    cases hstep
  obtain ⟨hjob, fs', progress, hgoes, htouches, hfile, hsound', hless⟩ :=
    h.goes hsite hmem hrunning
  cases hstep.symm.trans hgoes
  -- the other threads have other files
  have hother : ∀ w' ∈ as ++ bs, w'.path loc ≠ w.path loc := by
    intro w' hw' hpath
    have hnodup := nodup_tid_traces P
    rw [htraces, List.map_append, hworkers] at hnodup
    have hnodup' := (List.nodup_append.mp hnodup).1
    rw [List.map_map, List.map_append, List.map_cons, List.nodup_middle,
      ← List.map_append] at hnodup'
    exact (List.nodup_cons.mp hnodup').1 (List.mem_map.mpr ⟨w', hw', path_inj.mp hpath⟩)
  have hmembers : ∀ {x y : Worker T κ}, x ∈ as ++ y :: bs ↔ x = y ∨ x ∈ as ++ bs := by
    intro x y
    rw [List.mem_append, List.mem_cons, or_left_comm, ← List.mem_append]
  refine ⟨fs', _, rfl, ⟨h.alive, h.grows.trans htouches.grows, ?_, ?_, ?_, rest, ?_, ?_⟩, ?_⟩
  · intro j hj
    by_cases hself : j.path loc = w.path loc
    · rwa [hself]
    · rw [htouches.node_eq hself]
      exact h.free j hj
  · intro l hl
    rw [htouches.node_eq (hl _ hjob), h.frame l hl]
  · intro w' hw'
    rw [hset, hmembers] at hw'
    rcases hw' with rfl | hw'
    · exact ⟨(h.sound w hmem).1, hsound'⟩
    · have hin : w' ∈ s.workers := by
        rw [hworkers, hmembers]
        exact Or.inr hw'
      exact ⟨(h.sound w' hin).1, (h.sound w' hin).2.frame (htouches.node_eq (hother w' hw'))⟩
  · rw [htraces, hset, hworkers, List.map_append, List.map_append]
    rfl
  · cases hdestructor : s.destructor with
    | entered =>
        rw [hdestructor] at hat
        exact hat.elim
    | spawning dir rest' =>
        rw [hdestructor] at hat
        exact hat
    | joining joined =>
        rw [hdestructor] at hat
        obtain ⟨hrest, hjoined⟩ := hat
        refine ⟨hrest, ?_⟩
        have hlast : joined ≤ i := by
          by_contra hlt
          have htaken : (s.workers.take joined)[i]? = some w := by
            rw [List.getElem?_take_of_lt (Nat.lt_of_not_le hlt), hw]
          exact hrunning (hjoined w (List.mem_of_getElem? htaken))
        rwa [List.take_set_of_le hlast]
    | ended =>
        rw [hdestructor] at hat
        exact absurd (hat.2 w hmem) hrunning
  · simp only [Dump.left, List.length_set]
    refine Nat.add_lt_add_right ?_ _
    rw [hset, hworkers]
    simp only [List.map_append, List.map_cons, List.sum_append, List.sum_cons]
    omega

/-- The destructor or one of its threads can go on, until the destructor is at its end. -/
theorem Dumping.progress (hsite : Site P trace_dir loc fs)
    (h : Dumping F P trace_dir loc fs s) (hrunning : s.destructor ≠ .ended) :
    ∃ e s', s.next F path_string P e = some s' := by
  obtain ⟨rest, htraces, hat⟩ := h.started
  have hdestruct : s.next F path_string P .destructor = s.destruct path_string P :=
    if_neg (by simp [h.alive])
  cases hdestructor : s.destructor with
  | entered =>
      rw [hdestructor] at hat
      exact hat.elim
  | spawning dir rest' =>
      refine ⟨.destructor, ?_⟩
      rw [hdestruct, Dump.destruct, hdestructor]
      obtain _ | ⟨⟨tid, _ | buffer⟩, rest'⟩ := rest'
      · exact ⟨_, rfl⟩
      · exact ⟨_, rfl⟩
      · exact ⟨_, rfl⟩
  | joining joined =>
      cases hw : s.workers[joined]? with
      | none =>
          refine ⟨.destructor, { s with destructor := .ended }, ?_⟩
          simp only [hdestruct, Dump.destruct, hdestructor, hw]
      | some w =>
          by_cases hended : w.progress = .ended
          · refine ⟨.destructor, { s with destructor := .joining (joined + 1) }, ?_⟩
            simp only [hdestruct, Dump.destruct, hdestructor, hw, hended]
          · obtain ⟨-, fs', progress, hgoes, -⟩ :=
              h.goes hsite (List.mem_of_getElem? hw) hended
            refine ⟨.worker joined, { s with
              fs := fs'
              workers := s.workers.set joined { w with progress := progress } }, ?_⟩
            rw [Dump.next, if_neg (by simp [h.alive]), hw, Option.bind_some, hgoes]
            rfl
  | ended => exact absurd hdestructor hrunning

/-- What the dump is to leave behind: the file of each buffer that is not null, and nothing
else that was not there before. -/
structure Dumped (F : TraceFile T κ) (P : Plugin T) (loc : Location) (fs fs' : FileSystem κ) :
    Prop where
  trace : ∀ tid buffer, P.thread_event_buffers_.lookup tid = some (some buffer) →
    fs'.tree.node (file_name tid.handle :: loc) =
      some (.file (F.contents ((P.heap buffer).map Entry.event)
        (F.metaData ((P.heap buffer).map Entry.event) tid)))
  other : ∀ l, (∀ tid buffer, P.thread_event_buffers_.lookup tid = some (some buffer) →
    l ≠ file_name tid.handle :: loc) → fs'.tree.node l = fs.tree.node l

/-- At its end the dump is complete. -/
theorem Dumping.dumped (h : Dumping F P trace_dir loc fs s) (hended : s.destructor = .ended) :
    Dumped F P loc fs s.fs where
  trace tid buffer hlookup := by
    have hjob : (⟨tid, (P.heap buffer).map Entry.event⟩ : Job T) ∈ P.traces :=
      mem_traces.mpr ⟨buffer, hlookup, rfl⟩
    obtain ⟨rest, htraces, hat⟩ := h.started
    rw [hended] at hat
    obtain ⟨rfl, hall⟩ := hat
    rw [htraces, List.mem_append, List.mem_map] at hjob
    obtain ⟨w, hw, hjob⟩ := hjob.resolve_right List.not_mem_nil
    have hsound := (h.sound w hw).2
    rw [hall w hw, hjob] at hsound
    exact hsound
  other l hl := by
    refine h.frame l fun j hj hpath => ?_
    obtain ⟨buffer, hlookup, -⟩ := mem_traces.mp hj
    exact hl j.tid buffer hlookup hpath

/-- There is only one way to leave the file system behind. -/
theorem Dumped.unique {fs₁ fs₂ : FileSystem κ} (h₁ : Dumped F P loc fs fs₁)
    (h₂ : Dumped F P loc fs fs₂) : fs₁.tree.node = fs₂.tree.node := by
  funext l
  by_cases hl : ∀ tid buffer, P.thread_event_buffers_.lookup tid = some (some buffer) →
      l ≠ file_name tid.handle :: loc
  · rw [h₁.other l hl, h₂.other l hl]
  · push Not at hl
    obtain ⟨tid, buffer, hlookup, rfl⟩ := hl
    rw [h₁.trace tid buffer hlookup, h₂.trace tid buffer hlookup]

/-- Where a null buffer's file would be, nothing has changed. -/
theorem Dumped.null {fs' : FileSystem κ} (h : Dumped F P loc fs fs') {tid : ThreadId}
    (hnull : P.thread_event_buffers_.lookup tid = some none) :
    fs'.tree.node (file_name tid.handle :: loc) = fs.tree.node (file_name tid.handle :: loc) := by
  refine h.other _ fun tid' buffer hlookup hpath => ?_
  have hsame : (⟨tid, []⟩ : Job T).path loc = (⟨tid', []⟩ : Job T).path loc := hpath
  cases path_inj.mp hsame
  cases hnull.symm.trans hlookup

/-- Every step keeps this going, and leaves less to do. -/
theorem dump_step {fs' : FileSystem κ}
    (hcreate : create_trace_directory path_string fs = .ok (trace_dir, fs'))
    (hsite : Site P trace_dir loc fs') (s : Dump T κ) (e : DumpEvent) (s' : Dump T κ)
    (h : s = .begin T fs ∨ Dumping F P trace_dir loc fs' s)
    (hnext : (dumpMachine F path_string P).next s e = some s') :
    (s' = .begin T fs ∨ Dumping F P trace_dir loc fs' s') ∧ s'.left F P < s.left F P := by
  rcases h with rfl | h
  · cases e with
    | destructor =>
        obtain ⟨hdumping, hless⟩ := dumping_start hcreate hsite hnext
        exact ⟨Or.inr hdumping, hless⟩
    | worker i => cases hnext
  · have halive : ¬ s.terminated = true := by simp [h.alive]
    cases e with
    | destructor =>
        obtain ⟨hdumping, hless⟩ := h.destruct ((if_neg halive).symm.trans hnext)
        exact ⟨Or.inr hdumping, hless⟩
    | worker i =>
        have hworker := (if_neg halive).symm.trans hnext
        obtain ⟨w, hw, hmap⟩ := Option.bind_eq_some_iff.mp hworker
        obtain ⟨r, hstep, hr⟩ := Option.map_eq_some_iff.mp hmap
        obtain ⟨fs₁, w', rfl, hdumping, hless⟩ := h.worker hsite hw hstep
        cases hr
        exact ⟨Or.inr hdumping, hless⟩

end Dumping

/-! ### The results -/

section Results

variable {T : TraceEvents} {κ : Type} {F : TraceFile T κ} {P : Plugin T}
variable {path_string : Option (List Char)} {trace_dir : List Char} {loc : Location}
variable {fs fs' : FileSystem κ}

/-- The destructor, from its beginning to its end, whichever way the steps of its threads
follow one another. -/
theorem dumped_of_exec (hexecuting : ∀ tid ∈ P.thread_event_buffers_, tid.handle ≠ 0)
    (hcreate : create_trace_directory path_string fs = .ok (trace_dir, fs'))
    (hresolve : fs'.resolve trace_dir = some loc)
    (hfree : ∀ tid buffer, P.thread_event_buffers_.lookup tid = some (some buffer) →
      fs'.tree.node (file_name tid.handle :: loc) ≠ some .dir)
    {es : List DumpEvent} {s : Dump T κ}
    (hrun : (dumpMachine F path_string P).exec (.begin T fs) es = some s) :
    s.terminated = false ∧
    es.length ≤ (Dump.begin T fs).left F P ∧
    (∃ es' s', (dumpMachine F path_string P).exec s es' = some s' ∧ s'.destructor = .ended) ∧
    (s.destructor = .ended → Dumped F P loc fs' s.fs) := by
  obtain ⟨loc', hloc', hdir⟩ := is_directory_iff.mp (is_directory_of_create hcreate).1
  cases hresolve.symm.trans hloc'
  have hsite : Site P trace_dir loc fs' := by
    refine ⟨hresolve, hdir, hexecuting, fun j hj => ?_⟩
    obtain ⟨buffer, hlookup, -⟩ := mem_traces.mp hj
    exact hfree j.tid buffer hlookup
  have hstep := dump_step (F := F) hcreate hsite
  have hlength := (dumpMachine F path_string P).length_add_le hstep (Or.inl rfl) hrun
  have hinv : s = .begin T fs ∨ Dumping F P trace_dir loc fs' s :=
    (dumpMachine F path_string P).exec_preserves
      (fun s e s' h hnext => (hstep s e s' h hnext).1) (Or.inl rfl) hrun
  have hends := (dumpMachine F path_string P).exec_to_end hstep (fun s h hend => by
    rcases h with rfl | h
    · exact ⟨.destructor, _, next_begin F P hcreate⟩
    · exact h.progress hsite hend) hinv
  refine ⟨?_, by omega, hends, fun hended => ?_⟩
  · rcases hinv with rfl | h
    · rfl
    · exact h.alive
  · rcases hinv with rfl | h
    · cases hended
    · exact h.dumped hended

/-- **The trace dump neither loses nor mixes threads.**  Whatever is in
`thread_event_buffers_`, once `create_trace_directory` has found a directory, in which no
directory has the name of a trace:

* the process is not terminated, and whichever way the steps of the destructor and of its
  threads follow one another, it can come to the end of the destructor, and it has to after
  a number of steps that is known at the beginning;
* at the end there is the trace of each thread with a buffer, each in a file of its own, and
  everything else is as it was, where the trace of a thread with a null buffer would be, too;
* every order of the steps leaves the same behind. -/
theorem trace_dump (hexecuting : ∀ tid ∈ P.thread_event_buffers_, tid.handle ≠ 0)
    (hcreate : create_trace_directory path_string fs = .ok (trace_dir, fs'))
    (hresolve : fs'.resolve trace_dir = some loc)
    (hfree : ∀ tid buffer, P.thread_event_buffers_.lookup tid = some (some buffer) →
      fs'.tree.node (file_name tid.handle :: loc) ≠ some .dir)
    {es : List DumpEvent} {s : Dump T κ}
    (hrun : (dumpMachine F path_string P).exec (.begin T fs) es = some s) :
    s.terminated = false ∧
    es.length ≤ (Dump.begin T fs).left F P ∧
    (∃ es' s', (dumpMachine F path_string P).exec s es' = some s' ∧ s'.destructor = .ended) ∧
    (s.destructor = .ended →
      Dumped F P loc fs' s.fs ∧
      (∀ tid, P.thread_event_buffers_.lookup tid = some none →
        s.fs.tree.node (file_name tid.handle :: loc)
          = fs'.tree.node (file_name tid.handle :: loc)) ∧
      ∀ es₂ s₂, (dumpMachine F path_string P).exec (.begin T fs) es₂ = some s₂ →
        s₂.destructor = .ended → s₂.fs.tree.node = s.fs.tree.node) ∧
    ∀ tid tid' : ThreadId, file_name tid.handle = file_name tid'.handle → tid = tid' := by
  obtain ⟨halive, hlength, hends, hdumped⟩ := dumped_of_exec hexecuting hcreate hresolve hfree hrun
  refine ⟨halive, hlength, hends, fun hended => ⟨hdumped hended, fun tid => (hdumped hended).null,
    fun es₂ s₂ hrun₂ hended₂ => ?_⟩, fun tid tid' hname => ?_⟩
  · obtain ⟨-, -, -, hdumped₂⟩ := dumped_of_exec hexecuting hcreate hresolve hfree hrun₂
    exact (hdumped₂ hended₂).unique (hdumped hended)
  · have hpath : (⟨tid, []⟩ : Job T).path loc = (⟨tid', []⟩ : Job T).path loc :=
      congrArg (· :: loc) hname
    exact path_inj.mp hpath

/-- The destructor finds the directory it should find, and goes on. -/
def Finalises (F : TraceFile T κ) (P : Plugin T) (path_string : Option (List Char))
    (fs : FileSystem κ) : Prop :=
  FindsDirectory path_string fs ∧
    ∀ s, (dumpMachine F path_string P).next (.begin T fs) .destructor = some s →
      s.terminated = false

/-- **Finalisation finds a directory** exactly if the path leads somewhere, or only its last
name is missing.  Otherwise the process is terminated before anything is written. -/
theorem finalisation_iff (F : TraceFile T κ) (P : Plugin T) (path_string : Option (List Char))
    (fs : FileSystem κ) :
    Finalises F P path_string fs ↔
      path_exists fs (read_trace_path_from_env path_string fs) ∨
        OneMissing fs (read_trace_path_from_env path_string fs) := by
  rw [← findsDirectory_iff]
  refine and_iff_left_of_imp fun hfinds s hnext => ?_
  obtain ⟨trace_dir, fs', hcreate, -⟩ := hfinds
  cases (next_begin F P hcreate).symm.trans hnext
  rfl

end Results

/-! ### Two threads -/

/-- A thread, once it has been written, and events. -/
abbrev PlainTrace (T : TraceEvents) := Option ThreadId × List (AccessEvent T)

/-- Traces that hold the thread they are of and its events, written one by one. -/
def TraceFile.plain (T : TraceEvents) : TraceFile T (PlainTrace T) where
  MetaData := ThreadId
  metaData _ tid := tid
  opened := (none, [])
  writes event_buffer tid :=
    (fun c => (some tid, c.2)) :: event_buffer.map fun event c => (c.1, c.2 ++ [event])
  contents event_buffer tid := (some tid, event_buffer)
  foldl_writes event_buffer tid := by
    have hfold : ∀ (events before : List (AccessEvent T)),
        (events.map fun event (c : PlainTrace T) => (c.1, c.2 ++ [event])).foldl
          (fun c w => w c) (some tid, before) = (some tid, before ++ events) := by
      intro events
      induction events with
      | nil => intro before; simp
      | cons event events ih =>
          intro before
          rw [List.map_cons, List.foldl_cons, ih, List.append_assoc, List.singleton_append]
    exact hfold event_buffer []

/-- A file system that has nothing but its root. -/
def bare (κ : Type) : FileSystem κ := ⟨.empty κ, [], rfl⟩

/-- An event at some address. -/
def eventAt (address : UInt64) : AccessEvent .perf where
  address := address
  ip := 100
  access_type := .LOAD
  memory_level := .MEM_LVL_L1
  time := 1

/-- Two threads that have recorded an event each, and one whose buffer is null. -/
def twoBuffers : Plugin .perf where
  all_events_ := []
  thread_event_buffers_ :=
    { entries := [⟨⟨1000⟩, some 0⟩, ⟨⟨400000000⟩, some 1⟩, ⟨⟨7⟩, none⟩]
      nodupKeys := (by decide : [(⟨1000⟩ : ThreadId), ⟨400000000⟩, ⟨7⟩].Nodup) }
  heap buffer := if buffer = 0 then [⟨3, eventAt 10⟩] else [⟨4, eventAt 11⟩]
  allocated := 2

/-- The traces of the two threads end up in the current directory, and there is none for
the third. -/
theorem trace_dump_two_buffers : ∃ es s,
    (dumpMachine (.plain .perf) none twoBuffers).exec (.begin .perf (bare _)) es = some s ∧
    s.destructor = .ended ∧
    s.fs.tree.node ["trace.1000.bin".toList] = some (.file (some ⟨1000⟩, [eventAt 10])) ∧
    s.fs.tree.node ["trace.400000000.bin".toList]
      = some (.file (some ⟨400000000⟩, [eventAt 11])) ∧
    s.fs.tree.node ["trace.7.bin".toList] = none := by
  have hexecuting : ∀ tid ∈ twoBuffers.thread_event_buffers_, tid.handle ≠ 0 := by
    intro tid htid
    have hkey : tid ∈ [(⟨1000⟩ : ThreadId), ⟨400000000⟩, ⟨7⟩] := htid
    simp only [List.mem_cons, List.not_mem_nil, or_false] at hkey
    rcases hkey with rfl | rfl | rfl
    · decide
    · decide
    · decide
  have hcreate : create_trace_directory none (bare (PlainTrace .perf))
      = .ok ("/".toList, bare _) := by rfl
  have hresolve : (bare (PlainTrace .perf)).resolve "/".toList = some [] := by rfl
  have hfree : ∀ tid buffer, twoBuffers.thread_event_buffers_.lookup tid = some (some buffer) →
      (bare (PlainTrace .perf)).tree.node [file_name tid.handle] ≠ some .dir :=
    fun _ _ _ h => nomatch h
  have hbegin : (dumpMachine (.plain .perf) none twoBuffers).exec (.begin .perf (bare _)) []
      = some (.begin .perf (bare _)) := rfl
  obtain ⟨-, -, ⟨es, s, hrun, hended⟩, -⟩ := trace_dump hexecuting hcreate hresolve hfree hbegin
  obtain ⟨-, -, -, hdumped, -⟩ := trace_dump hexecuting hcreate hresolve hfree hrun
  obtain ⟨hdump, hnull, -⟩ := hdumped hended
  exact ⟨es, s, hrun, hended, hdump.trace ⟨1000⟩ 0 (by decide),
    hdump.trace ⟨400000000⟩ 1 (by decide), hnull ⟨7⟩ (by decide)⟩

/-- Of this path two names are missing.  They could be created, but the process is
terminated. -/
theorem finalisation_fails :
    Makeable (bare (PlainTrace .perf)) "traces/run".toList ∧
    create_trace_directory (some "traces/run".toList) (bare (PlainTrace .perf))
      = .error ⟨"traces/run".toList⟩ ∧
    ¬ ∀ path_string fs, Finalises (.plain .perf) twoBuffers path_string fs := by
  have herror : create_trace_directory (some "traces/run".toList) (bare (PlainTrace .perf))
      = .error ⟨"traces/run".toList⟩ := by rfl
  refine ⟨?_, herror, fun h => ?_⟩
  · -- one of the two names is created, and the other one is still missing
    have hname : ProperName "traces".toList := by decide
    have hnew : (FileTree.empty (PlainTrace .perf)).node ["traces".toList] ≠ some .dir := nofun
    have hgrows : (FileTree.empty (PlainTrace .perf)).Grows
        ((FileTree.empty (PlainTrace .perf)).put [] "traces".toList .dir rfl hname hnew) :=
      FileTree.grows_put_dir rfl
    have hcreated : (bare _).Grows ((bare _).grow _ hgrows) := FileSystem.grows_grow hgrows
    have hone : OneMissing ((bare _).grow _ hgrows) "traces/run".toList :=
      ⟨by decide, ["traces".toList], rfl, rfl⟩
    exact (makeable_of_oneMissing hone).of_grows hcreated
  · obtain ⟨⟨p, fs', hcreate, -⟩, -⟩ := h (some "traces/run".toList) (bare _)
    cases hcreate.symm.trans herror

end AccessSampling
