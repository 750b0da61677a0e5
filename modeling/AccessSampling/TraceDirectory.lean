import AccessSampling.Utils
import AccessSampling.Foundation.FileTree

/-!
# The directory of the traces

`create_trace_directory` is what the destructor of the plugin calls before it writes
anything.  It takes the path in `AS_TRACE_PATH`, or the current directory when the variable
is not set.  A path that leads to something else than a directory is replaced by the current
directory; a path that leads nowhere is created, by a call that creates one directory.

* `create_directory` — one directory, in a parent that is there.
* `Makeable` — the path leads to a directory once some directories have been created.
* `findsDirectory_iff` — which values of the variable end in the directory they should end
  in.  Where the path leads nowhere there is no second choice: `create_trace_directory`
  throws.

The file system is a tree of directories and files (`FileTree`) to which this process alone
makes changes, and in which it may make any.  There are no symbolic links, no permissions,
and no limits on the length of a name.
-/

namespace AccessSampling

open Foundation

universe u

variable {κ : Type u}

/-- `boost::filesystem::filesystem_error`, with the path it is about. -/
structure FilesystemError where
  path : List Char
  deriving DecidableEq

/-! ### What the file system is asked for -/

def current_path (fs : FileSystem κ) : List Char := fs.cwd.path

/-- `boost::filesystem::exists`. -/
def path_exists (fs : FileSystem κ) (p : List Char) : Bool := (fs.resolve p).isSome

def is_directory (fs : FileSystem κ) (p : List Char) : Bool :=
  (fs.resolve p).any fs.tree.isDir

/-- `boost::filesystem::create_directory`: the last name of the path, in a parent that is
there already. -/
def create_directory (fs : FileSystem κ) (p : List Char) : Except FilesystemError (FileSystem κ) :=
  if is_directory fs p then .ok fs
  else
    match hparent : fs.folder (parent_path p) with
    | none => .error ⟨p⟩
    | some loc =>
        if h : ProperName (filename p) ∧ fs.tree.node (filename p :: loc) = none then
          .ok (fs.grow
            (fs.tree.put loc (filename p) .dir (FileSystem.node_parent hparent) h.1
              (h.2.trans_ne (Option.some_ne_none Node.dir).symm))
            (FileTree.grows_put_dir h.2))
        else .error ⟨p⟩

/-! ### `create_trace_directory` -/

/-- `read_trace_path_from_env`, `path_string` being what `std::getenv` returns. -/
def read_trace_path_from_env (path_string : Option (List Char)) (fs : FileSystem κ) : List Char :=
  match path_string with
  | some path_string => path_string
  | none => current_path fs

def create_trace_directory (path_string : Option (List Char)) (fs : FileSystem κ) :
    Except FilesystemError (List Char × FileSystem κ) :=
  let parent_path := read_trace_path_from_env path_string fs
  if path_exists fs parent_path then
    if ¬ is_directory fs parent_path then .ok (current_path fs, fs)
    else .ok (parent_path, fs)
  else (create_directory fs parent_path).map fun fs' => (parent_path, fs')

section Directories

variable {fs fs' : FileSystem κ} {p : List Char}

theorem is_directory_iff :
    is_directory fs p ↔ ∃ loc, fs.resolve p = some loc ∧ fs.tree.node loc = some .dir := by
  unfold is_directory
  cases fs.resolve p with
  | none => simp
  | some loc => simp

theorem path_exists_iff : path_exists fs p ↔ ∃ loc, fs.resolve p = some loc :=
  Option.isSome_iff_exists

theorem path_exists_of_is_directory (h : is_directory fs p) : path_exists fs p := by
  obtain ⟨loc, hloc, -⟩ := is_directory_iff.mp h
  exact path_exists_iff.mpr ⟨loc, hloc⟩

/-- The current directory is a directory. -/
theorem is_directory_current_path (fs : FileSystem κ) : is_directory fs (current_path fs) :=
  is_directory_iff.mpr ⟨fs.cwd, FileSystem.resolve_path (by simp [fs.cwd_dir]), fs.cwd_dir⟩

/-- The path leads to a directory, once some directories have been created. -/
def Makeable (fs : FileSystem κ) (p : List Char) : Prop :=
  ∃ fs', fs.Grows fs' ∧ is_directory fs' p

/-- A path that leads to something else than a directory cannot be made one. -/
theorem is_directory_of_makeable (h : Makeable fs p) (hthere : path_exists fs p) :
    is_directory fs p := by
  obtain ⟨fs', hgrows, hdir⟩ := h
  obtain ⟨loc, hloc⟩ := path_exists_iff.mp hthere
  obtain ⟨loc', hloc', hdir'⟩ := is_directory_iff.mp hdir
  obtain rfl : loc = loc' := Option.some.inj ((hgrows.resolve hloc).symm.trans hloc')
  refine is_directory_iff.mpr ⟨loc, hloc, ?_⟩
  cases hnode : fs.tree.node loc with
  | none => exact absurd hnode (FileSystem.resolve_eq_some hloc).2
  | some n =>
      cases n with
      | dir => rfl
      | file c =>
          obtain ⟨c', hc'⟩ := hgrows.tree.file hnode
          cases hc'.symm.trans hdir'

theorem makeable_of_is_directory (h : is_directory fs p) : Makeable fs p :=
  ⟨fs, .refl fs, h⟩

/-- Of the path only the last name is missing, and it is one that a directory can have. -/
def OneMissing (fs : FileSystem κ) (p : List Char) : Prop :=
  ProperName (filename p) ∧
    ∃ loc, fs.folder (parent_path p) = some loc ∧ fs.tree.node (filename p :: loc) = none

/-- **`create_directory` creates the last name of a path.** -/
theorem create_directory_of_oneMissing (h : OneMissing fs p) :
    ∃ fs', create_directory fs p = .ok fs' ∧ fs.Grows fs' ∧ is_directory fs' p := by
  by_cases hdir : is_directory fs p
  · exact ⟨fs, if_pos hdir, .refl fs, hdir⟩
  · obtain ⟨hname, loc, hparent, hnone⟩ := h
    have hloc := FileSystem.node_parent hparent
    have hgrows : fs.tree.Grows (fs.tree.put loc (filename p) .dir hloc hname (by simp [hnone])) :=
      FileTree.grows_put_dir hnone
    refine ⟨fs.grow _ hgrows, ?_, FileSystem.grows_grow hgrows, ?_⟩
    · rw [create_directory, if_neg hdir]
      split
      case h_1 hno => cases hno.symm.trans hparent
      case h_2 loc' hparent' =>
        cases hparent'.symm.trans hparent
        exact dif_pos ⟨hname, hnone⟩
    · obtain ⟨slashes, hp, hslashes⟩ := path_eq p
      have hchild : (fs.grow _ hgrows).tree.node (filename p :: loc) = some .dir := by
        simp [FileSystem.grow]
      have hresolve := FileSystem.resolve_child (open_parent_path p) hname hslashes
        ((FileSystem.grows_grow hgrows).folder hparent) hchild
      rw [← hp] at hresolve
      exact is_directory_iff.mpr ⟨_, hresolve, hchild⟩

theorem makeable_of_oneMissing (h : OneMissing fs p) : Makeable fs p := by
  obtain ⟨fs', -, hgrows, hdir⟩ := create_directory_of_oneMissing h
  exact ⟨fs', hgrows, hdir⟩

theorem Makeable.of_grows (hgrows : fs.Grows fs') (h : Makeable fs' p) : Makeable fs p := by
  obtain ⟨fs₁, hgrows₁, hdir⟩ := h
  exact ⟨fs₁, hgrows.trans hgrows₁, hdir⟩

/-- It creates nothing else. -/
theorem oneMissing_of_create_directory (hno : ¬ path_exists fs p)
    (h : create_directory fs p = .ok fs') : OneMissing fs p := by
  rw [create_directory, if_neg (mt path_exists_of_is_directory hno)] at h
  split at h
  case h_1 => cases h
  case h_2 loc hparent =>
    split at h
    case isTrue hnew => exact ⟨hnew.1, loc, hparent, hnew.2⟩
    case isFalse => cases h

end Directories

section Finds

variable {path_string : Option (List Char)} {fs fs' : FileSystem κ} {p : List Char}

/-- Where the path leads nowhere, it is created. -/
theorem create_directory_of_create
    (hno : ¬ path_exists fs (read_trace_path_from_env path_string fs))
    (h : create_trace_directory path_string fs = .ok (p, fs')) :
    create_directory fs (read_trace_path_from_env path_string fs) = .ok fs' ∧
      p = read_trace_path_from_env path_string fs := by
  rw [create_trace_directory, if_neg hno] at h
  cases hcreate : create_directory fs (read_trace_path_from_env path_string fs) with
  | error e =>
      rw [hcreate] at h
      cases h
  | ok fs₁ =>
      rw [hcreate] at h
      cases h
      exact ⟨rfl, rfl⟩

/-- What `create_trace_directory` returns is a directory then, and nothing has gone. -/
theorem is_directory_of_create (h : create_trace_directory path_string fs = .ok (p, fs')) :
    is_directory fs' p ∧ fs.Grows fs' := by
  by_cases hthere : path_exists fs (read_trace_path_from_env path_string fs)
  · rw [create_trace_directory, if_pos hthere] at h
    split at h
    case isTrue =>
      cases h
      exact ⟨is_directory_current_path fs, .refl fs⟩
    case isFalse hdir =>
      cases h
      exact ⟨not_not.mp hdir, .refl fs⟩
  · obtain ⟨hcreate, rfl⟩ := create_directory_of_create hthere h
    obtain ⟨fs₁, hok, hgrows, hdir⟩ :=
      create_directory_of_oneMissing (oneMissing_of_create_directory hthere hcreate)
    cases hcreate.symm.trans hok
    exact ⟨hdir, hgrows⟩

/-- `create_trace_directory` returns a directory: the one that is asked for, if it can be
one, and the current directory otherwise. -/
def FindsDirectory (path_string : Option (List Char)) (fs : FileSystem κ) : Prop :=
  ∃ p fs', create_trace_directory path_string fs = .ok (p, fs') ∧ is_directory fs' p ∧
    (Makeable fs (read_trace_path_from_env path_string fs) →
      p = read_trace_path_from_env path_string fs) ∧
    (¬ Makeable fs (read_trace_path_from_env path_string fs) → p = current_path fs)

/-- **A directory is found** exactly if the path leads somewhere, or only its last name is
missing. -/
theorem findsDirectory_iff : FindsDirectory path_string fs ↔
    path_exists fs (read_trace_path_from_env path_string fs) ∨
      OneMissing fs (read_trace_path_from_env path_string fs) := by
  constructor
  · rintro ⟨p, fs', hcreate, -, -, -⟩
    by_cases hthere : path_exists fs (read_trace_path_from_env path_string fs)
    · exact Or.inl hthere
    · exact Or.inr
        (oneMissing_of_create_directory hthere (create_directory_of_create hthere hcreate).1)
  · intro h
    by_cases hthere : path_exists fs (read_trace_path_from_env path_string fs)
    · by_cases hdir : is_directory fs (read_trace_path_from_env path_string fs)
      · refine ⟨_, fs, ?_, hdir, fun _ => rfl,
          fun hno => absurd (makeable_of_is_directory hdir) hno⟩
        rw [create_trace_directory, if_pos hthere, if_neg (not_not_intro hdir)]
      · refine ⟨_, fs, ?_, is_directory_current_path fs,
          fun hmake => absurd (is_directory_of_makeable hmake hthere) hdir, fun _ => rfl⟩
        rw [create_trace_directory, if_pos hthere, if_pos hdir]
    · obtain ⟨fs', hok, hgrows, hdir⟩ := create_directory_of_oneMissing (h.resolve_left hthere)
      refine ⟨_, fs', ?_, hdir, fun _ => rfl, fun hno => absurd ⟨fs', hgrows, hdir⟩ hno⟩
      rw [create_trace_directory, if_neg hthere, hok]
      rfl

end Finds

end AccessSampling
