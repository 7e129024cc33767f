import Bellbook.Manifest.Manifest

/-!
# Manifests of worktrees (`manifest.rs`, `manifest_from_dir`)

A worktree is a tree of files, symlinks and directories under names the operating system gives as
bytes. The walk keeps a stack of directories still to be read, skips `.git` and every path that the
map of gitlinks has, and then adds the gitlinks of the map. A system call that fails ends the walk with
its error; here every call succeeds.
-/

namespace Bellbook

open Std

/-! ## Worktrees -/

/-- `OsString`, on Unix. -/
abbrev OsString := Bytes

/-- What stands under a name. The mode of a file is its permission bits; a pipe, a socket or a device
is `other`. -/
inductive FsNode where
  | file (mode : UInt32) (bytes : Bytes)
  | symlink (target : OsString)
  | dir (children : List (OsString × FsNode))
  | other

/-- The entries of a directory, in the order in which it lists them. -/
abbrev Children := List (OsString × FsNode)

mutual

/-- In every directory the names differ, and no name is empty or has a slash. -/
def FsNode.Valid : FsNode → Prop
  | .dir children => ValidChildren children
  | _ => True

def ValidChildren : Children → Prop
  | [] => True
  | (name, node) :: rest =>
    (name ≠ [] ∧ 0x2f ∉ name ∧ ∀ c ∈ rest, c.1 ≠ name) ∧ node.Valid ∧ ValidChildren rest

end

/-- The tree below a root directory. -/
structure Worktree where
  children : Children
  valid : ValidChildren children

/-! ## The walk -/

/-- The errors of the walk, each an `InvalidData`. -/
inductive ManifestError where
  | nonUtf8Path
  | gitlinkCollides
  | gitlinkOid
  deriving DecidableEq

def ManifestError.message : ManifestError → String
  | .nonUtf8Path => "non-UTF-8 path is not representable in a manifest"
  | .gitlinkCollides => "a gitlink path collides with a walked file or symlink"
  | .gitlinkOid => "gitlink OID is not a 40- or 64-hex string"

/-- `OsStr::to_str`. -/
def toStr (os : OsString) : Option String := (textOfUtf8 os).map String.ofList

/-- `utf8_name`. -/
def utf8Name (os : OsString) : Except ManifestError String :=
  match toStr os with
  | some name => .ok name
  | none => .error .nonUtf8Path

/-- `is_executable`: the owner-execute bit. -/
def isExecutable (mode : UInt32) : Bool := mode &&& 0o100 ≠ 0

/-- The path of a child. -/
def childPath (pre name : String) : String := if pre = "" then name else pre ++ "/" ++ name

/-- The locals of the walk: the entries, their paths, and the directories still to be read with their
paths, the last one pushed first. -/
structure Walk where
  out : List ManifestEntry := []
  walkedPaths : ExtTreeSet String := ∅
  stack : List (Children × String)

def Walk.push (w : Walk) (e : ManifestEntry) : Walk :=
  { w with out := w.out ++ [e], walkedPaths := w.walkedPaths.insert e.path }

/-- Repo-relative path to commit OID. -/
abbrev Gitlinks := ExtTreeMap String String

/-- `sort_by_key` with the file name. -/
def sortByName (children : Children) : Children :=
  children.mergeSort fun a b => decide (a.1 ≤ b.1)

/-- One child of a directory. -/
def Platform.visitChild (P : Platform) (gitlinks : Gitlinks) (pre : String) (w : Walk)
    (child : OsString × FsNode) : Except ManifestError Walk := do
  let name ← utf8Name child.1
  if name = ".git" then return w
  let rel := childPath pre name
  if rel ∈ gitlinks then return w
  match child.2 with
  | .symlink target => do
    let target ← utf8Name target
    return w.push (P.symlinkEntry rel target)
  | .dir children => return { w with stack := (children, rel) :: w.stack }
  | .file mode bytes => return w.push (P.fileEntry rel (isExecutable mode) bytes)
  | .other => return w

mutual

/-- The number of directories. -/
def FsNode.dirs : FsNode → Nat
  | .dir children => 1 + dirsOf children
  | _ => 0

def dirsOf : Children → Nat
  | [] => 0
  | (_, node) :: rest => node.dirs + dirsOf rest

end

/-- The directories on the stack and below. -/
def Walk.pending (w : Walk) : Nat := (w.stack.map fun d => 1 + dirsOf d.1).sum

theorem dirsOf_eq_sum (children : Children) : dirsOf children = (children.map fun c => c.2.dirs).sum := by
  induction children with
  | nil => rfl
  | cons c rest ih =>
    obtain ⟨name, node⟩ := c
    simp [dirsOf, ih]

section Termination

variable {P : Platform} {gitlinks : Gitlinks} {pre : String}

theorem pending_visitChild {w w' : Walk} {child : OsString × FsNode}
    (h : P.visitChild gitlinks pre w child = .ok w') : w'.pending ≤ w.pending + child.2.dirs := by
  obtain ⟨name, node⟩ := child
  unfold Platform.visitChild at h
  obtain ⟨s, -, h⟩ := bind_eq_ok.mp h
  dsimp only at h
  split at h
  · cases h
    exact Nat.le_add_right _ _
  · split at h
    · cases h
      exact Nat.le_add_right _ _
    · split at h
      · obtain ⟨target, -, h⟩ := bind_eq_ok.mp h
        cases h
        exact Nat.le_add_right _ _
      · cases h
        simp [Walk.pending, FsNode.dirs]
        omega
      · cases h
        exact Nat.le_add_right _ _
      · cases h
        exact Nat.le_add_right _ _

theorem pending_visitChildren {children : Children} : ∀ {w w' : Walk},
    children.foldlM (P.visitChild gitlinks pre) w = .ok w' →
      w'.pending ≤ w.pending + (children.map fun c => c.2.dirs).sum := by
  induction children with
  | nil =>
    intro w w' h
    cases h
    exact Nat.le_add_right _ _
  | cons child children ih =>
    intro w w' h
    rw [List.foldlM_cons] at h
    obtain ⟨v, hv, hrest⟩ := bind_eq_ok.mp h
    have hchild := pending_visitChild hv
    have := ih hrest
    rw [List.map_cons, List.sum_cons]
    omega

end Termination

namespace Platform

variable (P : Platform) (gitlinks : Gitlinks)

/-- The loop of the walk. -/
def walkLoop (w : Walk) : Except ManifestError Walk :=
  match _hstack : w.stack with
  | [] => .ok w
  | (children, pre) :: stack =>
    match _hread : (sortByName children).foldlM (P.visitChild gitlinks pre) { w with stack } with
    | .error e => .error e
    | .ok w' => walkLoop w'
termination_by w.pending
decreasing_by
  have hle := pending_visitChildren _hread
  have hsort : ((sortByName children).map fun c => c.2.dirs).sum = dirsOf children := by
    rw [dirsOf_eq_sum]
    exact ((List.mergeSort_perm _ _).map _).sum_nat
  simp only [Walk.pending, _hstack, List.map_cons, List.sum_cons, hsort] at hle ⊢
  omega

/-- One gitlink of the map. -/
def addGitlink (walkedPaths : ExtTreeSet String) (out : List ManifestEntry) (link : String × String) :
    Except ManifestError (List ManifestEntry) :=
  if link.1 ∈ walkedPaths then .error .gitlinkCollides
  else match P.gitlinkEntry link.1 link.2 with
    | none => .error .gitlinkOid
    | some e => .ok (out ++ [e])

/-- `manifest_from_dir`. -/
def manifestFromDir (root : Children) : Except ManifestError (List ManifestEntry) := do
  let w ← P.walkLoop gitlinks { stack := [(root, "")] }
  gitlinks.toList.foldlM (P.addGitlink w.walkedPaths) w.out

end Platform

end Bellbook
