import Mathlib.Data.List.DropRight
import Mathlib.Logic.Function.Basic

/-!
# File trees and paths

A file tree assigns to a location, the list of names on the way to it, a directory or a
file.  Whatever has a location lies in a directory, so a tree cannot have a gap.

* `FileTree.walk` — follow a list of names from a directory, `.` and `..` and empty names
  as in a path.
* `FileTree.Grows` — what was there is still there, and of the same kind; a walk that
  succeeds still leads to the same location (`Grows.walk`).
* `FileTree.put` — a new node, or the new contents of a file.
* `FileSystem.resolve` — a path is a string, followed from the root or from the current
  directory.  `resolve_child` is how a path leads to its parent first.
* `FileSystem.create`, `FileSystem.write` — files by their paths; each touches one file.
-/

namespace AccessSampling.Foundation

universe u

/-- What stands at a location. -/
inductive Node (κ : Type u) where
  | dir
  | file (contents : κ)

/-- The contents of a file are rewritten; a directory stays one. -/
def Node.map {κ : Type u} (w : κ → κ) : Node κ → Node κ
  | .dir => .dir
  | .file c => .file (w c)

abbrev FileName := List Char

/-- The names on the way from the root, the last one first. -/
abbrev Location := List FileName

/-- A name that a directory entry can have. -/
structure ProperName (name : FileName) : Prop where
  ne_nil : name ≠ []
  ne_dot : name ≠ ['.']
  ne_dotdot : name ≠ ['.', '.']
  no_slash : '/' ∉ name

instance (name : FileName) : Decidable (ProperName name) :=
  decidable_of_iff (name ≠ [] ∧ name ≠ ['.'] ∧ name ≠ ['.', '.'] ∧ '/' ∉ name)
    ⟨fun ⟨h₁, h₂, h₃, h₄⟩ => ⟨h₁, h₂, h₃, h₄⟩, fun ⟨h₁, h₂, h₃, h₄⟩ => ⟨h₁, h₂, h₃, h₄⟩⟩

/-- A tree of directories and files. -/
structure FileTree (κ : Type u) where
  node : Location → Option (Node κ)
  root : node [] = some .dir
  parent : ∀ {name loc}, node (name :: loc) ≠ none → node loc = some .dir
  proper : ∀ {name loc}, node (name :: loc) ≠ none → ProperName name

namespace FileTree

variable {κ : Type u} {t t' : FileTree κ} {loc loc' : Location} {name : FileName}

/-- The tree that has nothing but its root. -/
def empty (κ : Type u) : FileTree κ where
  node loc := if loc = [] then some .dir else none
  root := rfl
  parent h := absurd rfl h
  proper h := absurd rfl h

def isDir (t : FileTree κ) (loc : Location) : Bool :=
  match t.node loc with
  | some .dir => true
  | _ => false

@[simp] theorem isDir_iff : t.isDir loc = true ↔ t.node loc = some .dir := by
  unfold isDir
  split
  case h_1 h => simp [h]
  case h_2 h => simpa using h

instance (t : FileTree κ) (loc : Location) : Decidable (t.node loc = some .dir) :=
  decidable_of_iff _ isDir_iff

/-! ### Following names -/

/-- Follow one name from a directory. -/
def enter (t : FileTree κ) (loc : Location) (name : FileName) : Option Location :=
  if t.node loc = some .dir then
    if name = [] ∨ name = ['.'] then some loc
    else if name = ['.', '.'] then some loc.tail
    else if (t.node (name :: loc)).isSome then some (name :: loc) else none
  else none

/-- Follow names, one after another. -/
def walk (t : FileTree κ) (loc : Location) (names : List FileName) : Option Location :=
  names.foldlM t.enter loc

@[simp] theorem walk_nil (t : FileTree κ) (loc : Location) : t.walk loc [] = some loc := rfl

theorem walk_cons (t : FileTree κ) (loc : Location) (name : FileName) (names : List FileName) :
    t.walk loc (name :: names) = (t.enter loc name).bind fun loc' => t.walk loc' names :=
  List.foldlM_cons

theorem walk_append (t : FileTree κ) (loc : Location) (names names' : List FileName) :
    t.walk loc (names ++ names') = (t.walk loc names).bind fun loc' => t.walk loc' names' :=
  List.foldlM_append

@[simp] theorem walk_singleton (t : FileTree κ) (loc : Location) (name : FileName) :
    t.walk loc [name] = t.enter loc name := by
  rw [walk_cons]
  exact Option.bind_fun_some _

/-- An empty name stays, and demands a directory. -/
theorem enter_empty (t : FileTree κ) (loc : Location) :
    t.enter loc [] = if t.node loc = some .dir then some loc else none := by
  simp [enter]

theorem enter_proper (h : t.node loc = some .dir) (hname : ProperName name) :
    t.enter loc name = if (t.node (name :: loc)).isSome then some (name :: loc) else none := by
  rw [enter, if_pos h, if_neg (not_or.mpr ⟨hname.ne_nil, hname.ne_dot⟩), if_neg hname.ne_dotdot]

/-- A name leads from a directory to something that is there. -/
theorem enter_eq_some (h : t.enter loc name = some loc') :
    t.node loc = some .dir ∧ t.node loc' ≠ none := by
  unfold enter at h
  split at h
  case isFalse => cases h
  case isTrue hdir =>
    refine ⟨hdir, ?_⟩
    split at h
    case isTrue =>
      cases h
      simp [hdir]
    case isFalse =>
      split at h
      case isTrue =>
        cases h
        cases loc with
        | nil => simp [t.root]
        | cons name' loc =>
            have hthere : t.node (name' :: loc) ≠ none := by simp [hdir]
            simp [t.parent hthere]
      case isFalse =>
        split at h
        case isTrue hsome =>
          cases h
          exact Option.isSome_iff_ne_none.mp hsome
        case isFalse => cases h

theorem walk_eq_some {names : List FileName} (hloc : t.node loc ≠ none)
    (h : t.walk loc names = some loc') : t.node loc' ≠ none := by
  induction names generalizing loc with
  | nil => exact Option.some.inj h ▸ hloc
  | cons name names ih =>
      rw [walk_cons, Option.bind_eq_some_iff] at h
      obtain ⟨next, hnext, hrest⟩ := h
      exact ih (enter_eq_some hnext).2 hrest

/-- Whatever is in the tree, its names lead to it from the root. -/
theorem walk_reverse (h : t.node loc ≠ none) : t.walk [] loc.reverse = some loc := by
  induction loc with
  | nil => rfl
  | cons name loc ih =>
      have hdir := t.parent h
      rw [List.reverse_cons, walk_append, ih (by simp [hdir]), Option.bind_some, walk_singleton,
        enter_proper hdir (t.proper h), if_pos (Option.isSome_iff_ne_none.mpr h)]

/-! ### Growing trees -/

/-- What is there stays, and stays a directory or a file. -/
structure Grows (t t' : FileTree κ) : Prop where
  dir : ∀ {loc}, t.node loc = some .dir → t'.node loc = some .dir
  file : ∀ {loc c}, t.node loc = some (.file c) → ∃ c', t'.node loc = some (.file c')

theorem Grows.refl (t : FileTree κ) : t.Grows t := ⟨id, fun h => ⟨_, h⟩⟩

theorem Grows.trans {t'' : FileTree κ} (h : t.Grows t') (h' : t'.Grows t'') : t.Grows t'' :=
  ⟨fun hdir => h'.dir (h.dir hdir), fun hfile => (h.file hfile).elim fun _ => h'.file⟩

theorem Grows.ne_none (h : t.Grows t') (hloc : t.node loc ≠ none) : t'.node loc ≠ none := by
  cases hnode : t.node loc with
  | none => exact absurd hnode hloc
  | some n =>
      cases n with
      | dir => simp [h.dir hnode]
      | file c =>
          obtain ⟨c', hc'⟩ := h.file hnode
          simp [hc']

theorem Grows.enter (h : t.Grows t') (henter : t.enter loc name = some loc') :
    t'.enter loc name = some loc' := by
  have hdir' := h.dir (enter_eq_some henter).1
  have hsome : t.node (name :: loc) ≠ none → (t'.node (name :: loc)).isSome := fun hne =>
    Option.isSome_iff_ne_none.mpr (h.ne_none hne)
  unfold FileTree.enter at henter ⊢
  rw [if_pos (enter_eq_some (t := t) henter).1] at henter
  rw [if_pos hdir']
  split
  case isTrue hstay => rwa [if_pos hstay] at henter
  case isFalse hstay =>
    rw [if_neg hstay] at henter
    split
    case isTrue hup => rwa [if_pos hup] at henter
    case isFalse hup =>
      rw [if_neg hup] at henter
      split at henter
      case isTrue hthere => rwa [if_pos (hsome (Option.isSome_iff_ne_none.mp hthere))]
      case isFalse => cases henter

/-- A walk through a tree is a walk through a tree that has grown. -/
theorem Grows.walk (h : t.Grows t') {names : List FileName} :
    ∀ {loc : Location}, t.walk loc names = some loc' → t'.walk loc names = some loc' := by
  induction names with
  | nil => exact id
  | cons name names ih =>
      intro loc hwalk
      rw [walk_cons, Option.bind_eq_some_iff] at hwalk ⊢
      obtain ⟨next, hnext, hrest⟩ := hwalk
      exact ⟨next, h.enter hnext, ih hrest⟩

/-! ### New nodes -/

theorem update_eq_none (f : Location → Option (Node κ)) (w : κ → κ) :
    Function.update f loc ((f loc).map (Node.map w)) loc' = none ↔ f loc' = none := by
  by_cases hself : loc' = loc
  · rw [hself, Function.update_self, Option.map_eq_none_iff]
  · rw [Function.update_of_ne hself]

/-- Put a node into a directory, where there is nothing yet, or a file. -/
def put (t : FileTree κ) (loc : Location) (name : FileName) (n : Node κ)
    (hdir : t.node loc = some .dir) (hname : ProperName name)
    (hnew : t.node (name :: loc) ≠ some .dir) : FileTree κ where
  node := Function.update t.node (name :: loc) (some n)
  root := by
    rw [Function.update_of_ne (by simp)]
    exact t.root
  parent := by
    intro name' loc' h
    by_cases hself : name' :: loc' = name :: loc
    · obtain ⟨-, rfl⟩ := List.cons.inj hself
      rwa [Function.update_of_ne (List.cons_ne_self name loc').symm]
    · rw [Function.update_of_ne hself] at h
      have hdir' := t.parent h
      have hother : loc' ≠ name :: loc := fun hloc => hnew (hloc ▸ hdir')
      rwa [Function.update_of_ne hother]
  proper := by
    intro name' loc' h
    by_cases hself : name' :: loc' = name :: loc
    · obtain ⟨rfl, -⟩ := List.cons.inj hself
      exact hname
    · rw [Function.update_of_ne hself] at h
      exact t.proper h

section Put

variable {n : Node κ} {hdir : t.node loc = some .dir} {hname : ProperName name}
variable {hnew : t.node (name :: loc) ≠ some .dir}

@[simp] theorem node_put_self : (t.put loc name n hdir hname hnew).node (name :: loc) = some n :=
  Function.update_self ..

theorem node_put_ne (h : loc' ≠ name :: loc) :
    (t.put loc name n hdir hname hnew).node loc' = t.node loc' :=
  Function.update_of_ne h ..

/-- A new directory where there was nothing. -/
theorem grows_put_dir (hnone : t.node (name :: loc) = none) :
    t.Grows (t.put loc name .dir hdir hname hnew) where
  dir {loc'} h := by
    by_cases hself : loc' = name :: loc
    · rw [hself, node_put_self]
    · rwa [node_put_ne hself]
  file {loc' c} h := by
    have hself : loc' ≠ name :: loc := by
      rintro rfl
      rw [hnone] at h
      cases h
    exact ⟨c, by rwa [node_put_ne hself]⟩

/-- A file, new or not. -/
theorem grows_put_file {c : κ} : t.Grows (t.put loc name (.file c) hdir hname hnew) where
  dir {loc'} h := by
    rwa [node_put_ne fun hself => hnew (hself ▸ h)]
  file {loc' c'} h := by
    by_cases hself : loc' = name :: loc
    · exact ⟨c, by rw [hself, node_put_self]⟩
    · exact ⟨c', by rwa [node_put_ne hself]⟩

end Put

/-- Rewrite what a file holds. -/
def modify (t : FileTree κ) (loc : Location) (w : κ → κ) : FileTree κ where
  node := Function.update t.node loc ((t.node loc).map (Node.map w))
  root := by
    by_cases hroot : [] = loc
    · rw [← hroot, Function.update_self, t.root]
      rfl
    · rw [Function.update_of_ne hroot, t.root]
  parent := by
    intro name' loc' h
    have hdir : t.node loc' = some .dir := t.parent (mt (update_eq_none _ _).mpr h)
    by_cases hself : loc' = loc
    · rw [hself, Function.update_self, ← hself, hdir]
      rfl
    · rwa [Function.update_of_ne hself]
  proper h := t.proper (mt (update_eq_none _ _).mpr h)

@[simp] theorem node_modify_self (t : FileTree κ) (loc : Location) (w : κ → κ) :
    (t.modify loc w).node loc = (t.node loc).map (Node.map w) :=
  Function.update_self ..

theorem node_modify_ne {w : κ → κ} (h : loc' ≠ loc) :
    (t.modify loc w).node loc' = t.node loc' :=
  Function.update_of_ne h ..

theorem grows_modify (t : FileTree κ) (loc : Location) (w : κ → κ) : t.Grows (t.modify loc w) where
  dir {loc'} h := by
    by_cases hself : loc' = loc
    · rw [hself, node_modify_self, ← hself, h]
      rfl
    · rwa [node_modify_ne hself]
  file {loc' c} h := by
    by_cases hself : loc' = loc
    · refine ⟨w c, ?_⟩
      rw [hself, node_modify_self, ← hself, h]
      rfl
    · exact ⟨c, by rwa [node_modify_ne hself]⟩

end FileTree

/-! ### Paths -/

/-- The path of a location. -/
def Location.path (loc : Location) : List Char := '/' :: ['/'].intercalate loc.reverse

/-- A path without the slashes at its end. -/
def trimmed (p : List Char) : List Char := p.rdropWhile (· == '/')

/-- The last name of a path. -/
def filename (p : List Char) : FileName := (trimmed p).rtakeWhile (· != '/')

/-- What comes before the last name, up to a slash. -/
def parent_path (p : List Char) : List Char := (trimmed p).rdropWhile (· != '/')

/-- A path to which a name can be appended as it is. -/
def Open (p : List Char) : Prop := p = [] ∨ ∃ q, p = q ++ ['/']

theorem rdropWhile_append_of_pos {α : Type u} {f : α → Bool} {xs ys : List α}
    (h : ∀ y ∈ ys, f y) : (xs ++ ys).rdropWhile f = xs.rdropWhile f := by
  rw [List.rdropWhile, List.reverse_append,
    List.dropWhile_append_of_pos fun y hy => h y (List.mem_reverse.mp hy)]
  rfl

theorem splitOn_slash (p : List Char) : List.splitOn '/' ('/' :: p) = [] :: p.splitOn '/' :=
  List.splitOn_append_cons_self_of_not_mem List.not_mem_nil p

/-- A path is its parent's, its last name, and slashes. -/
theorem path_eq (p : List Char) :
    ∃ slashes, p = parent_path p ++ (filename p ++ slashes) ∧ ∀ c ∈ slashes, c = '/' := by
  refine ⟨p.rtakeWhile (· == '/'), ?_, fun c hc => by simpa using List.mem_rtakeWhile_imp hc⟩
  rw [← List.append_assoc, parent_path, filename, List.rdropWhile_append_rtakeWhile, trimmed,
    List.rdropWhile_append_rtakeWhile]

theorem open_parent_path (p : List Char) : Open (parent_path p) := by
  by_cases hnil : parent_path p = []
  · exact Or.inl hnil
  · have hlast : ¬ ((parent_path p).getLast hnil != '/') = true :=
      List.rdropWhile_last_not _ _ hnil
    have hslash : (parent_path p).getLast hnil = '/' := by simpa using hlast
    refine Or.inr ⟨(parent_path p).dropLast, ?_⟩
    rw [← hslash, List.dropLast_append_getLast]

theorem trimmed_append {q name slashes : List Char} (hname : ProperName name)
    (hslashes : ∀ c ∈ slashes, c = '/') : trimmed (q ++ (name ++ slashes)) = q ++ name := by
  have hlast : ∀ h : q ++ name ≠ [], ¬ ((q ++ name).getLast h == '/') = true := by
    intro h hslash
    rw [List.getLast_append_of_ne_nil _ hname.ne_nil, beq_iff_eq] at hslash
    exact hname.no_slash (hslash ▸ List.getLast_mem hname.ne_nil)
  rw [trimmed, ← List.append_assoc, rdropWhile_append_of_pos fun c hc => by simp [hslashes c hc],
    List.rdropWhile_eq_self_iff.mpr hlast]

/-- There is only one way to take a path apart like this. -/
theorem parent_path_append {q name slashes : List Char} (hq : Open q) (hname : ProperName name)
    (hslashes : ∀ c ∈ slashes, c = '/') :
    parent_path (q ++ (name ++ slashes)) = q ∧ filename (q ++ (name ++ slashes)) = name := by
  have htrimmed := trimmed_append (q := q) hname hslashes
  have hparent : parent_path (q ++ (name ++ slashes)) = q := by
    rw [parent_path, htrimmed, rdropWhile_append_of_pos]
    · rcases hq with rfl | ⟨r, rfl⟩
      · rfl
      · exact List.rdropWhile_concat_neg _ _ _ (by simp)
    · intro c hc
      simpa using fun h : c = '/' => hname.no_slash (h ▸ hc)
  refine ⟨hparent, ?_⟩
  have hsplit : parent_path (q ++ (name ++ slashes)) ++ filename (q ++ (name ++ slashes))
      = q ++ name := List.rdropWhile_append_rtakeWhile.trans htrimmed
  rw [hparent] at hsplit
  exact List.append_cancel_left hsplit

/-- A file tree and the current directory. -/
structure FileSystem (κ : Type u) where
  tree : FileTree κ
  cwd : Location
  cwd_dir : tree.node cwd = some .dir

namespace FileSystem

variable {κ : Type u} {fs : FileSystem κ} {loc : Location} {p name slashes : List Char}

/-- Where a path starts. -/
def start (fs : FileSystem κ) (p : List Char) : Location :=
  if p.head? = some '/' then [] else fs.cwd

/-- Where a path leads to. -/
def resolve (fs : FileSystem κ) (p : List Char) : Option Location :=
  if p = [] then none else fs.tree.walk (fs.start p) (p.splitOn '/')

/-- Where the parent of a path leads to. -/
def folder (fs : FileSystem κ) (p : List Char) : Option Location :=
  if p = [] then some fs.cwd else fs.resolve p

/-- What was there is still there, and so is the current directory. -/
structure Grows (fs fs' : FileSystem κ) : Prop where
  cwd_eq : fs'.cwd = fs.cwd
  tree : fs.tree.Grows fs'.tree

theorem Grows.refl (fs : FileSystem κ) : fs.Grows fs := ⟨rfl, .refl fs.tree⟩

theorem Grows.trans {fs₁ fs₂ : FileSystem κ} (h : fs.Grows fs₁) (h' : fs₁.Grows fs₂) :
    fs.Grows fs₂ :=
  ⟨h'.cwd_eq.trans h.cwd_eq, h.tree.trans h'.tree⟩

/-- The file system with more in its tree. -/
def grow (fs : FileSystem κ) (t' : FileTree κ) (h : fs.tree.Grows t') : FileSystem κ :=
  ⟨t', fs.cwd, h.dir fs.cwd_dir⟩

theorem grows_grow {t' : FileTree κ} (h : fs.tree.Grows t') : fs.Grows (fs.grow t' h) := ⟨rfl, h⟩

theorem start_ne_none (fs : FileSystem κ) (p : List Char) : fs.tree.node (fs.start p) ≠ none := by
  unfold start
  split
  case isTrue => simp [fs.tree.root]
  case isFalse => simp [fs.cwd_dir]

/-- A path leads to something that is there. -/
theorem resolve_eq_some (h : fs.resolve p = some loc) : p ≠ [] ∧ fs.tree.node loc ≠ none := by
  unfold resolve at h
  split at h
  case isTrue => cases h
  case isFalse hne => exact ⟨hne, FileTree.walk_eq_some (fs.start_ne_none p) h⟩

theorem Grows.resolve {fs' : FileSystem κ} (h : fs.Grows fs') (hp : fs.resolve p = some loc) :
    fs'.resolve p = some loc := by
  have hne := (resolve_eq_some hp).1
  have hstart : fs'.start p = fs.start p := by rw [start, start, h.cwd_eq]
  rw [FileSystem.resolve, if_neg hne] at hp ⊢
  rw [hstart]
  exact h.tree.walk hp

theorem Grows.folder {fs' : FileSystem κ} (h : fs.Grows fs') (hp : fs.folder p = some loc) :
    fs'.folder p = some loc := by
  unfold FileSystem.folder at hp ⊢
  split
  case isTrue hnil =>
    rw [if_pos hnil] at hp
    rw [h.cwd_eq, hp]
  case isFalse hne =>
    rw [if_neg hne] at hp
    exact h.resolve hp

/-- The path of a location leads to it. -/
theorem resolve_path (h : fs.tree.node loc ≠ none) : fs.resolve loc.path = some loc := by
  have hproper : ∀ {l : Location}, fs.tree.node l ≠ none → ∀ n ∈ l, '/' ∉ n := by
    intro l
    induction l with
    | nil => exact fun _ => List.forall_mem_nil _
    | cons n l ih =>
        intro hl
        rw [List.forall_mem_cons]
        exact ⟨(fs.tree.proper hl).no_slash, ih (by simp [fs.tree.parent hl])⟩
  have hpath : fs.resolve loc.path
      = fs.tree.walk [] (List.splitOn '/' ('/' :: ['/'].intercalate loc.reverse)) := rfl
  rw [hpath, splitOn_slash, FileTree.walk_cons, FileTree.enter_empty, if_pos fs.tree.root,
    Option.bind_some]
  by_cases hnil : loc = []
  · rw [hnil, List.reverse_nil, List.intercalate_nil, List.splitOn_nil, FileTree.walk_singleton,
      FileTree.enter_empty, if_pos fs.tree.root]
  · rw [List.splitOn_intercalate, FileTree.walk_reverse h]
    · exact fun m hm => hproper h m (List.mem_reverse.mp hm)
    · simpa using hnil

theorem start_append (hne : p ≠ []) (q : List Char) : fs.start (p ++ q) = fs.start p := by
  unfold start
  rw [List.head?_append_of_ne_nil _ hne]

/-- A slash at the end demands a directory. -/
theorem folder_slash {r : List Char} : fs.folder (r ++ ['/']) = some loc ↔
    fs.tree.walk (fs.start (r ++ ['/'])) (r.splitOn '/') = some loc ∧
      fs.tree.node loc = some .dir := by
  rw [folder, if_neg (by simp), resolve, if_neg (by simp), List.splitOn_append_cons_self,
    List.splitOn_nil, FileTree.walk_append, Option.bind_eq_some_iff]
  constructor
  · rintro ⟨loc', hwalk, hlast⟩
    rw [FileTree.walk_singleton, FileTree.enter_empty] at hlast
    split at hlast
    case isFalse => cases hlast
    case isTrue hdir =>
      cases hlast
      exact ⟨hwalk, hdir⟩
  · rintro ⟨hwalk, hdir⟩
    refine ⟨loc, hwalk, ?_⟩
    rw [FileTree.walk_singleton, FileTree.enter_empty, if_pos hdir]

/-- A path that goes on after its parent. -/
theorem resolve_append {q : List Char} (hq : Open q) (hfolder : fs.folder q = some loc)
    (hne : p ≠ []) (hhead : p.head? ≠ some '/') :
    fs.resolve (q ++ p) = fs.tree.walk loc (p.splitOn '/') := by
  rcases hq with rfl | ⟨r, rfl⟩
  · cases hfolder
    rw [List.nil_append, resolve, if_neg hne, start, if_neg hhead]
  · obtain ⟨hwalk, -⟩ := folder_slash.mp hfolder
    rw [resolve, if_neg (by simp), start_append (by simp), List.append_assoc,
      List.singleton_append, List.splitOn_append_cons_self, FileTree.walk_append, hwalk,
      Option.bind_some]

/-- The parent of a path leads to a directory. -/
theorem node_folder {q : List Char} (hq : Open q) (h : fs.folder q = some loc) :
    fs.tree.node loc = some .dir := by
  rcases hq with rfl | ⟨r, rfl⟩
  · cases h
    exact fs.cwd_dir
  · exact (folder_slash.mp h).2

theorem node_parent (h : fs.folder (parent_path p) = some loc) : fs.tree.node loc = some .dir :=
  node_folder (open_parent_path p) h

/-- Slashes at the end of a path demand a directory. -/
theorem walk_slashes (hdir : fs.tree.node loc = some .dir) (hslashes : ∀ c ∈ slashes, c = '/') :
    fs.tree.walk loc (slashes.splitOn '/') = some loc := by
  induction slashes with
  | nil => rw [List.splitOn_nil, FileTree.walk_singleton, FileTree.enter_empty, if_pos hdir]
  | cons c slashes ih =>
      rw [List.forall_mem_cons] at hslashes
      rw [hslashes.1, splitOn_slash, FileTree.walk_cons, FileTree.enter_empty,
        if_pos hdir, Option.bind_some, ih hslashes.2]

/-- **The path of a directory** goes by its parent. -/
theorem resolve_child {q : List Char} (hq : Open q) (hname : ProperName name)
    (hslashes : ∀ c ∈ slashes, c = '/') (hfolder : fs.folder q = some loc)
    (hchild : fs.tree.node (name :: loc) = some .dir) :
    fs.resolve (q ++ (name ++ slashes)) = some (name :: loc) := by
  have henter : fs.tree.enter loc name = some (name :: loc) := by
    rw [FileTree.enter_proper (node_folder hq hfolder) hname, if_pos (by simp [hchild])]
  have hhead : (name ++ slashes).head? ≠ some '/' := by
    rw [List.head?_append_of_ne_nil _ hname.ne_nil]
    exact fun h => hname.no_slash (List.mem_of_head? h)
  rw [resolve_append hq hfolder (by simp [hname.ne_nil]) hhead]
  cases slashes with
  | nil =>
      rw [List.append_nil, List.splitOn_eq_singleton hname.no_slash, FileTree.walk_singleton,
        henter]
  | cons c slashes =>
      rw [List.forall_mem_cons] at hslashes
      rw [hslashes.1, List.splitOn_append_cons_self_of_not_mem hname.no_slash,
        FileTree.walk_cons, henter, Option.bind_some, walk_slashes hchild hslashes.2]

/-! ### Files -/

/-- Open a file for writing, which creates it, or replaces what it holds: where it is, and
the file system then.  `none` when there is no directory for it, or a directory in its
place. -/
def create (fs : FileSystem κ) (p : List Char) (c : κ) : Option (Location × FileSystem κ) :=
  match hparent : fs.folder (parent_path p) with
  | none => none
  | some loc =>
      if h : trimmed p = p ∧ ProperName (filename p) ∧
          fs.tree.node (filename p :: loc) ≠ some .dir then
        some (filename p :: loc,
          fs.grow (fs.tree.put loc (filename p) (.file c) (node_parent hparent) h.2.1 h.2.2)
            FileTree.grows_put_file)
      else none

/-- Write to an open file. -/
def write (fs : FileSystem κ) (loc : Location) (w : κ → κ) : FileSystem κ :=
  fs.grow (fs.tree.modify loc w) (fs.tree.grows_modify loc w)

/-- At most the file at `loc` is another one. -/
structure Touches (fs fs' : FileSystem κ) (loc : Location) : Prop where
  grows : fs.Grows fs'
  node_eq : ∀ {l}, l ≠ loc → fs'.tree.node l = fs.tree.node l

theorem touches_write (fs : FileSystem κ) (loc : Location) (w : κ → κ) :
    fs.Touches (fs.write loc w) loc :=
  ⟨grows_grow _, FileTree.node_modify_ne⟩

theorem node_write {c : κ} (h : fs.tree.node loc = some (.file c)) (w : κ → κ) :
    (fs.write loc w).tree.node loc = some (.file (w c)) := by
  have hself := fs.tree.node_modify_self loc w
  rw [h] at hself
  exact hself

end FileSystem

/-- A name appended to a path, `boost::filesystem::path::append`. -/
def path_append (p : List Char) (name : FileName) : List Char :=
  if p = [] ∨ p.getLast? = some '/' then p ++ name else p ++ '/' :: name

namespace FileSystem

variable {κ : Type u} {fs : FileSystem κ} {loc : Location} {p name : List Char}

/-- The path of a directory with a name appended leads into the directory. -/
theorem folder_append (name : FileName) (hp : fs.resolve p = some loc)
    (hdir : fs.tree.node loc = some .dir) :
    ∃ q, path_append p name = q ++ name ∧ Open q ∧ fs.folder q = some loc := by
  have hne := (resolve_eq_some hp).1
  unfold path_append
  by_cases hlast : p.getLast? = some '/'
  · obtain ⟨r, rfl⟩ := List.getLast?_eq_some_iff.mp hlast
    refine ⟨r ++ ['/'], if_pos (Or.inr hlast), Or.inr ⟨r, rfl⟩, ?_⟩
    rwa [folder, if_neg hne]
  · refine ⟨p ++ ['/'], ?_, Or.inr ⟨p, rfl⟩, ?_⟩
    · rw [if_neg (not_or.mpr ⟨hne, hlast⟩), List.append_assoc, List.singleton_append]
    · rw [resolve, if_neg hne] at hp
      rw [folder_slash, start_append hne]
      exact ⟨hp, hdir⟩

/-- A file can be opened in a directory that is there, unless a directory has its name. -/
theorem create_eq_some (htrimmed : trimmed p = p) (hname : ProperName (filename p))
    (hparent : fs.folder (parent_path p) = some loc)
    (hfree : fs.tree.node (filename p :: loc) ≠ some .dir) (c : κ) :
    ∃ fs', fs.create p c = some (filename p :: loc, fs') ∧
      fs.Touches fs' (filename p :: loc) ∧
      fs'.tree.node (filename p :: loc) = some (.file c) := by
  unfold create
  split
  case h_1 hno => cases hno.symm.trans hparent
  case h_2 loc' hparent' =>
    cases hparent'.symm.trans hparent
    rw [dif_pos ⟨htrimmed, hname, hfree⟩]
    exact ⟨_, rfl, ⟨grows_grow _, fun h => Function.update_of_ne h ..⟩, Function.update_self ..⟩

/-- **A file in a directory**, opened by the path of the directory and its name. -/
theorem create_append (hp : fs.resolve p = some loc) (hdir : fs.tree.node loc = some .dir)
    (hname : ProperName name) (hfree : fs.tree.node (name :: loc) ≠ some .dir) (c : κ) :
    ∃ fs', fs.create (path_append p name) c = some (name :: loc, fs') ∧
      fs.Touches fs' (name :: loc) ∧ fs'.tree.node (name :: loc) = some (.file c) := by
  obtain ⟨q, hq, hopen, hfolder⟩ := folder_append name hp hdir
  obtain ⟨hparent, hfile⟩ := parent_path_append hopen hname (List.forall_mem_nil (· = '/'))
  have htrimmed := trimmed_append (q := q) hname (List.forall_mem_nil (· = '/'))
  rw [List.append_nil, ← hq] at hparent hfile htrimmed
  generalize path_append p name = r at hparent hfile htrimmed ⊢
  subst hparent hfile
  exact create_eq_some htrimmed hname hfolder hfree c

end FileSystem

end AccessSampling.Foundation
