import Bellbook.Manifest.Worktree

/-!
# What `manifest_from_dir` lists

`dirContents` lists the entries of a directory by recursion over the tree, and the walk with its stack
lists the same ones (`walkLoop_contents`). They are the files and symlinks at visible paths
(`mem_dirContents`), with no path twice (`nodup_dirContents`).

The walk skips every path of the map before it looks at what stands there, so that a file at such a
path is never walked, and the later test for a collision cannot fire.
-/

namespace Bellbook

open Std

/-! ## Paths -/

/-- The node stands at the path with these components. -/
inductive At : Children → List String → FsNode → Prop
  | here {children : Children} {os : OsString} {name : String} {node : FsNode}
      (hmem : (os, node) ∈ children) (hname : toStr os = some name) : At children [name] node
  | inside {children sub : Children} {os : OsString} {name : String} {path : List String}
      {node : FsNode} (hmem : (os, .dir sub) ∈ children) (hname : toStr os = some name)
      (hsub : At sub path node) : At children (name :: path) node

/-- The path below a directory. -/
def pathFrom (pre : String) (path : List String) : String := path.foldl childPath pre

/-- The repo-relative path with these components. -/
def relPath (path : List String) : String := pathFrom "" path

/-- Below a directory: the path has no `.git` component, and neither it nor a directory above it is a
path of the map. -/
def VisibleFrom (gitlinks : Gitlinks) (pre : String) (path : List String) : Prop :=
  ".git" ∉ path ∧ ∀ above, above ≠ [] → above <+: path → pathFrom pre above ∉ gitlinks

def Visible (gitlinks : Gitlinks) (path : List String) : Prop := VisibleFrom gitlinks "" path

/-- A regular file or a symlink. -/
def FsNode.isEntry : FsNode → Bool
  | .file _ _ | .symlink _ => true
  | .dir _ | .other => false

/-- The entry of a file or a symlink. -/
def FsNode.entry (P : Platform) (path : String) : FsNode → Option ManifestEntry
  | .file mode bytes => some (P.fileEntry path (isExecutable mode) bytes)
  | .symlink target => (toStr target).map (P.symlinkEntry path)
  | .dir _ | .other => none

mutual

/-- Names and targets are UTF-8. -/
def FsNode.Utf8Names : FsNode → Prop
  | .symlink target => (toStr target).isSome = true
  | .dir children => Utf8Children children
  | .file _ _ | .other => True

def Utf8Children : Children → Prop
  | [] => True
  | (name, node) :: rest => (toStr name).isSome = true ∧ node.Utf8Names ∧ Utf8Children rest

end

namespace Worktree

variable (t t' : Worktree) (gitlinks : Gitlinks)

/-- A path of the map is the path of a regular file or a symlink of the tree. -/
def Collides : Prop :=
  ∃ path node, At t.children path node ∧ node.isEntry = true ∧ relPath path ∈ gitlinks

/-- The trees have the same files and symlinks at visible paths. -/
def AgreesOutside : Prop :=
  ∀ path, Visible gitlinks path → ∀ node, node.isEntry = true →
    (At t.children path node ↔ At t'.children path node)

end Worktree

/-- The entries are those of the visible files and symlinks and of the gitlinks, each path once. -/
structure Platform.Lists (P : Platform) (t : Worktree) (gitlinks : Gitlinks)
    (entries : List ManifestEntry) : Prop where
  paths : (entries.map ManifestEntry.path).Nodup
  mem : ∀ e, e ∈ entries ↔
    (∃ path node, At t.children path node ∧ Visible gitlinks path ∧
      node.entry P (relPath path) = some e) ∨
    ∃ path oid, gitlinks[path]? = some oid ∧ P.gitlinkEntry path oid = some e

/-- Both fail, or both list the same entries. -/
def SameOutcome (r r' : Except ManifestError (List ManifestEntry)) : Prop :=
  match r, r' with
  | .ok entries, .ok entries' => entries.Perm entries'
  | .error _, .error _ => True
  | _, _ => False

/-- The contract: a collision is an error, without one the entries are as they should be, and what
stands at hidden paths does not matter. -/
structure Platform.Follows (P : Platform) (t : Worktree) (gitlinks : Gitlinks) : Prop where
  collision : t.Collides gitlinks → ∃ e, P.manifestFromDir gitlinks t.children = .error e
  entries : ¬t.Collides gitlinks → ∃ entries,
    P.manifestFromDir gitlinks t.children = .ok entries ∧ P.Lists t gitlinks entries
  hidden : ∀ t' : Worktree, Utf8Children t'.children → t.AgreesOutside t' gitlinks →
    SameOutcome (P.manifestFromDir gitlinks t.children) (P.manifestFromDir gitlinks t'.children)

/-! ## Listing by recursion -/

variable {P : Platform} {gitlinks : Gitlinks} {pre : String}

mutual

def FsNode.contents (P : Platform) (gitlinks : Gitlinks) (path : String) :
    FsNode → List ManifestEntry
  | .file mode bytes => [P.fileEntry path (isExecutable mode) bytes]
  | .symlink target => ((toStr target).map (P.symlinkEntry path)).toList
  | .dir children => dirContents P gitlinks path children
  | .other => []

/-- The entries below a directory. -/
def dirContents (P : Platform) (gitlinks : Gitlinks) (pre : String) : Children → List ManifestEntry
  | [] => []
  | (os, node) :: rest =>
    (match toStr os with
      | none => []
      | some name =>
        if name = ".git" ∨ childPath pre name ∈ gitlinks then []
        else node.contents P gitlinks (childPath pre name)) ++
      dirContents P gitlinks pre rest

end

/-- The entries of one child. -/
def childContents (P : Platform) (gitlinks : Gitlinks) (pre : String) (child : OsString × FsNode) :
    List ManifestEntry :=
  match toStr child.1 with
  | none => []
  | some name =>
    if name = ".git" ∨ childPath pre name ∈ gitlinks then []
    else child.2.contents P gitlinks (childPath pre name)

theorem dirContents_eq_flatMap (children : Children) :
    dirContents P gitlinks pre children = children.flatMap (childContents P gitlinks pre) := by
  induction children with
  | nil => rfl
  | cons child rest ih =>
    obtain ⟨os, node⟩ := child
    rw [dirContents, ih, List.flatMap_cons]
    rfl

theorem utf8Children_iff {children : Children} : Utf8Children children ↔
    ∀ child ∈ children, (toStr child.1).isSome = true ∧ child.2.Utf8Names := by
  induction children with
  | nil => simp [Utf8Children]
  | cons child rest ih =>
    obtain ⟨os, node⟩ := child
    rw [Utf8Children, ih, List.forall_mem_cons, and_assoc]

/-! ## The walk lists the same entries -/

/-- The entries still to come from the stack. -/
def Walk.rest (P : Platform) (gitlinks : Gitlinks) (w : Walk) : List ManifestEntry :=
  w.stack.flatMap fun d => dirContents P gitlinks d.2 d.1

/-- The walk in the middle of a directory, of which these children are still to be visited. -/
structure Walk.Inv (P : Platform) (gitlinks : Gitlinks) (total : List ManifestEntry) (pre : String)
    (children : Children) (w : Walk) : Prop where
  contents : (w.out ++ (children.flatMap (childContents P gitlinks pre) ++ w.rest P gitlinks)).Perm total
  walked : ∀ path, path ∈ w.walkedPaths ↔ path ∈ w.out.map ManifestEntry.path
  utf8 : Utf8Children children
  stack : ∀ d ∈ w.stack, Utf8Children d.1

section Walking

variable {total : List ManifestEntry} {w : Walk} {child : OsString × FsNode} {children : Children}

/-- An entry is pushed. -/
theorem Walk.Inv.push {e : ManifestEntry} (h : w.Inv P gitlinks total pre (child :: children))
    (hchild : childContents P gitlinks pre child = [e]) :
    (w.push e).Inv P gitlinks total pre children where
  contents := by
    have hperm := h.contents
    rw [List.flatMap_cons, hchild] at hperm
    simpa [Walk.push, Walk.rest] using hperm
  walked path := by
    show path ∈ w.walkedPaths.insert e.path ↔ path ∈ (w.out ++ [e]).map ManifestEntry.path
    rw [Worklist.mem_insert_iff, h.walked]
    simp [or_comm]
  utf8 := utf8Children_iff.mpr fun c hc => utf8Children_iff.mp h.utf8 c (List.mem_cons_of_mem _ hc)
  stack := h.stack

/-- A child without entries is passed over. -/
theorem Walk.Inv.pass (h : w.Inv P gitlinks total pre (child :: children))
    (hchild : childContents P gitlinks pre child = []) : w.Inv P gitlinks total pre children where
  contents := by
    have hperm := h.contents
    rwa [List.flatMap_cons, hchild, List.nil_append] at hperm
  walked := h.walked
  utf8 := utf8Children_iff.mpr fun c hc => utf8Children_iff.mp h.utf8 c (List.mem_cons_of_mem _ hc)
  stack := h.stack

/-- A directory is put on the stack. -/
theorem Walk.Inv.descend {sub : Children} {path : String}
    (h : w.Inv P gitlinks total pre (child :: children)) (hsub : Utf8Children sub)
    (hchild : childContents P gitlinks pre child = dirContents P gitlinks path sub) :
    Walk.Inv P gitlinks total pre children { w with stack := (sub, path) :: w.stack } where
  contents := by
    refine List.Perm.trans ?_ h.contents
    rw [List.flatMap_cons, hchild]
    refine List.Perm.append_left _ ?_
    simp only [Walk.rest, List.flatMap_cons, ← List.append_assoc]
    exact List.Perm.append_right _ List.perm_append_comm
  walked := h.walked
  utf8 := utf8Children_iff.mpr fun c hc => utf8Children_iff.mp h.utf8 c (List.mem_cons_of_mem _ hc)
  stack d hd := by
    rcases List.mem_cons.mp hd with rfl | hd
    · exact hsub
    · exact h.stack d hd

theorem visitChild_inv (h : w.Inv P gitlinks total pre (child :: children)) :
    ∃ w', P.visitChild gitlinks pre w child = .ok w' ∧ w'.Inv P gitlinks total pre children := by
  obtain ⟨os, node⟩ := child
  obtain ⟨hos, hnode⟩ := utf8Children_iff.mp h.utf8 (os, node) List.mem_cons_self
  obtain ⟨name, hname⟩ := Option.isSome_iff_exists.mp hos
  have hchild : childContents P gitlinks pre (os, node) =
      if name = ".git" ∨ childPath pre name ∈ gitlinks then []
      else node.contents P gitlinks (childPath pre name) := by
    simp only [childContents, hname]
  have hutf8 : utf8Name os = .ok name := by simp only [utf8Name, hname]
  by_cases hskip : name = ".git" ∨ childPath pre name ∈ gitlinks
  · rw [if_pos hskip] at hchild
    refine ⟨w, ?_, h.pass hchild⟩
    refine bind_eq_ok.mpr ⟨name, hutf8, ?_⟩
    rcases hskip with rfl | hlink
    · rfl
    · simp only [hlink, if_true]
      split <;> rfl
  · obtain ⟨hgit, hlink⟩ := not_or.mp hskip
    rw [if_neg hskip] at hchild
    cases node with
    | file mode bytes =>
      refine ⟨_, bind_eq_ok.mpr ⟨name, hutf8, ?_⟩, h.push hchild⟩
      simp only [hgit, hlink, if_false]
      rfl
    | symlink target =>
      obtain ⟨text, htext⟩ := Option.isSome_iff_exists.mp hnode
      have htarget : utf8Name target = .ok text := by simp only [utf8Name, htext]
      rw [FsNode.contents, htext] at hchild
      refine ⟨_, bind_eq_ok.mpr ⟨name, hutf8, ?_⟩, h.push hchild⟩
      simp only [hgit, hlink, if_false]
      exact bind_eq_ok.mpr ⟨text, htarget, rfl⟩
    | dir sub =>
      refine ⟨_, bind_eq_ok.mpr ⟨name, hutf8, ?_⟩, h.descend hnode hchild⟩
      simp only [hgit, hlink, if_false]
      rfl
    | other =>
      refine ⟨_, bind_eq_ok.mpr ⟨name, hutf8, ?_⟩, h.pass hchild⟩
      simp only [hgit, hlink, if_false]
      rfl

theorem visitChildren_inv : ∀ {w : Walk}, w.Inv P gitlinks total pre children →
    ∃ w', children.foldlM (P.visitChild gitlinks pre) w = .ok w' ∧
      w'.Inv P gitlinks total pre [] := by
  induction children with
  | nil => exact fun h => ⟨_, rfl, h⟩
  | cons child children ih =>
    intro w h
    obtain ⟨v, hv, hinv⟩ := visitChild_inv h
    obtain ⟨w', hw', hend⟩ := ih hinv
    refine ⟨w', ?_, hend⟩
    rw [List.foldlM_cons]
    exact bind_eq_ok.mpr ⟨v, hv, hw'⟩

/-- A directory is taken from the stack, and its children are sorted. -/
theorem Walk.Inv.read {sub : Children} {path : String} {stack : List (Children × String)}
    (h : w.Inv P gitlinks total pre []) (hstack : w.stack = (sub, path) :: stack) :
    Walk.Inv P gitlinks total path (sortByName sub) { w with stack } := by
  have hsort : (sortByName sub).Perm sub := List.mergeSort_perm _ _
  refine ⟨?_, h.walked, ?_, ?_⟩
  · refine List.Perm.trans (List.Perm.append_left _ ?_) h.contents
    simp only [Walk.rest, hstack, List.flatMap_nil, List.nil_append, List.flatMap_cons]
    refine List.Perm.append_right _ ?_
    rw [dirContents_eq_flatMap]
    exact hsort.flatMap_right _
  · refine utf8Children_iff.mpr fun c hc => ?_
    exact utf8Children_iff.mp (h.stack (sub, path) (by simp [hstack])) c (hsort.mem_iff.mp hc)
  · intro d hd
    exact h.stack d (by rw [hstack]; exact List.mem_cons_of_mem _ hd)

/-- **The walk lists the entries of the recursion**, in some order. -/
theorem walkLoop_contents (w : Walk) : ∀ {pre : String}, w.Inv P gitlinks total pre [] →
    ∃ w', P.walkLoop gitlinks w = .ok w' ∧ w'.out.Perm total ∧
      ∀ path, path ∈ w'.walkedPaths ↔ path ∈ w'.out.map ManifestEntry.path := by
  fun_induction Platform.walkLoop P gitlinks w with
  | case1 w hstack =>
    intro pre h
    refine ⟨w, rfl, ?_, h.walked⟩
    simpa [Walk.rest, hstack] using h.contents
  | case2 w children path stack hstack e hread =>
    -- no name of the directory stops the walk
    intro pre h
    obtain ⟨w', hw', -⟩ := visitChildren_inv (h.read hstack)
    rw [hw'] at hread
    cases hread
  | case3 w children path stack hstack v hread ih =>
    intro pre h
    obtain ⟨w', hw', hend⟩ := visitChildren_inv (h.read hstack)
    obtain rfl := Except.ok.inj (hw'.symm.trans hread)
    exact ih hend

end Walking

/-! ## The entries are those of the visible files and symlinks -/

theorem visibleFrom_cons {name : String} {path : List String} :
    VisibleFrom gitlinks pre (name :: path) ↔ ¬(name = ".git" ∨ childPath pre name ∈ gitlinks) ∧
      VisibleFrom gitlinks (childPath pre name) path := by
  constructor
  · rintro ⟨hgit, habove⟩
    obtain ⟨hname, hpath⟩ := not_or.mp (fun h => hgit (List.mem_cons.mpr h))
    have hlink : childPath pre name ∉ gitlinks := habove [name] (by simp) (by simp)
    refine ⟨not_or.mpr ⟨Ne.symm hname, hlink⟩, hpath, ?_⟩
    intro above hne hpre
    exact habove (name :: above) (by simp) (List.cons_prefix_cons.mpr ⟨rfl, hpre⟩)
  · rintro ⟨hskip, hgit, habove⟩
    obtain ⟨hname, hlink⟩ := not_or.mp hskip
    refine ⟨?_, ?_⟩
    · rw [List.mem_cons, not_or]
      exact ⟨Ne.symm hname, hgit⟩
    · intro above hne hpre
      cases above with
      | nil => exact absurd rfl hne
      | cons first above =>
        obtain ⟨rfl, hrest⟩ := List.cons_prefix_cons.mp hpre
        by_cases hnil : above = []
        · subst hnil
          exact hlink
        · exact habove above hnil hrest

theorem at_cons {child : OsString × FsNode} {rest : Children} {path : List String} {node : FsNode} :
    At (child :: rest) path node ↔ At [child] path node ∨ At rest path node := by
  constructor
  · intro h
    cases h with
    | here hmem hname =>
      rcases List.mem_cons.mp hmem with rfl | hmem
      · exact .inl (.here List.mem_cons_self hname)
      · exact .inr (.here hmem hname)
    | inside hmem hname hsub =>
      rcases List.mem_cons.mp hmem with rfl | hmem
      · exact .inl (.inside List.mem_cons_self hname hsub)
      · exact .inr (.inside hmem hname hsub)
  · rintro (h | h)
    · cases h with
      | here hmem hname => exact .here (List.mem_cons.mpr (.inl (List.mem_singleton.mp hmem))) hname
      | inside hmem hname hsub =>
        exact .inside (List.mem_cons.mpr (.inl (List.mem_singleton.mp hmem))) hname hsub
    · cases h with
      | here hmem hname => exact .here (List.mem_cons_of_mem _ hmem) hname
      | inside hmem hname hsub => exact .inside (List.mem_cons_of_mem _ hmem) hname hsub

/-- The entry is that of a file or a symlink visible below the directory. -/
def Listed (P : Platform) (gitlinks : Gitlinks) (pre : String) (children : Children)
    (e : ManifestEntry) : Prop :=
  ∃ path node, At children path node ∧ VisibleFrom gitlinks pre path ∧
    node.entry P (pathFrom pre path) = some e

theorem listed_cons {child : OsString × FsNode} {rest : Children} {e : ManifestEntry} :
    Listed P gitlinks pre (child :: rest) e ↔
      Listed P gitlinks pre [child] e ∨ Listed P gitlinks pre rest e := by
  constructor
  · rintro ⟨path, node, hat, hrest⟩
    rcases at_cons.mp hat with hat | hat
    · exact .inl ⟨path, node, hat, hrest⟩
    · exact .inr ⟨path, node, hat, hrest⟩
  · rintro (⟨path, node, hat, hrest⟩ | ⟨path, node, hat, hrest⟩)
    · exact ⟨path, node, at_cons.mpr (.inl hat), hrest⟩
    · exact ⟨path, node, at_cons.mpr (.inr hat), hrest⟩

/-- The entries of a node are its own and what is listed below it. -/
def FsNode.Listed (P : Platform) (gitlinks : Gitlinks) (path : String) (node : FsNode)
    (e : ManifestEntry) : Prop :=
  node.entry P path = some e ∨
    ∃ children, node = .dir children ∧ Bellbook.Listed P gitlinks path children e

theorem listed_singleton {os : OsString} {node : FsNode} {name : String} {e : ManifestEntry}
    (hname : toStr os = some name) : Listed P gitlinks pre [(os, node)] e ↔
      ¬(name = ".git" ∨ childPath pre name ∈ gitlinks) ∧
        node.Listed P gitlinks (childPath pre name) e := by
  constructor
  · rintro ⟨path, n, hat, hvisible, hentry⟩
    cases hat with
    | here hmem hname' =>
      cases List.mem_singleton.mp hmem
      obtain rfl := Option.some.inj (hname.symm.trans hname')
      exact ⟨(visibleFrom_cons.mp hvisible).1, .inl hentry⟩
    | inside hmem hname' hsub =>
      cases List.mem_singleton.mp hmem
      obtain rfl := Option.some.inj (hname.symm.trans hname')
      obtain ⟨hskip, hrest⟩ := visibleFrom_cons.mp hvisible
      exact ⟨hskip, .inr ⟨_, rfl, _, n, hsub, hrest, hentry⟩⟩
  · rintro ⟨hskip, hentry | ⟨children, rfl, path, n, hat, hvisible, hentry⟩⟩
    · refine ⟨[name], node, .here List.mem_cons_self hname, visibleFrom_cons.mpr ⟨hskip, ?_⟩, hentry⟩
      exact ⟨List.not_mem_nil, fun above hne hpre => absurd (List.prefix_nil.mp hpre) hne⟩
    · exact ⟨name :: path, n, .inside List.mem_cons_self hname hat,
        visibleFrom_cons.mpr ⟨hskip, hvisible⟩, hentry⟩

mutual

theorem mem_contents : ∀ (node : FsNode) (path : String) (e : ManifestEntry),
    e ∈ node.contents P gitlinks path ↔ node.Listed P gitlinks path e
  | .file mode bytes, path, e => by simp [FsNode.contents, FsNode.Listed, FsNode.entry, eq_comm]
  | .symlink target, path, e => by simp [FsNode.contents, FsNode.Listed, FsNode.entry]
  | .dir children, path, e => by
    rw [FsNode.contents, mem_dirContents children path e]
    simp [FsNode.Listed, FsNode.entry]
  | .other, path, e => by simp [FsNode.contents, FsNode.Listed, FsNode.entry]

theorem mem_dirContents : ∀ (children : Children) (pre : String) (e : ManifestEntry),
    e ∈ dirContents P gitlinks pre children ↔ Listed P gitlinks pre children e
  | [], pre, e => by
    refine iff_of_false List.not_mem_nil ?_
    rintro ⟨path, node, hat, -⟩
    cases hat with
    | here hmem _ => cases hmem
    | inside hmem _ _ => cases hmem
  | (os, node) :: rest, pre, e => by
    rw [dirContents, List.mem_append, mem_dirContents rest pre e, listed_cons]
    refine or_congr_left ?_
    cases hname : toStr os with
    | none =>
      refine iff_of_false List.not_mem_nil ?_
      rintro ⟨path, n, hat, -⟩
      cases hat with
      | here hmem hname' =>
        cases List.mem_singleton.mp hmem
        rw [hname] at hname'
        cases hname'
      | inside hmem hname' _ =>
        cases List.mem_singleton.mp hmem
        rw [hname] at hname'
        cases hname'
    | some name =>
      rw [listed_singleton hname, ← mem_contents node (childPath pre name) e]
      dsimp only
      split
      · next hskip => simp [hskip]
      · next hskip => simp [hskip]

end

/-! ## No path is listed twice -/

theorem utf8_of_toStr {os : OsString} {name : String} (h : toStr os = some name) :
    utf8 name.toList = os := by
  obtain ⟨text, htext, rfl⟩ := Option.map_eq_some_iff.mp h
  rw [String.toList_ofList]
  exact utf8_of_textOfUtf8 htext

/-- A valid name has no slash and is not empty. -/
theorem toStr_valid {os : OsString} {name : String} (h : toStr os = some name) (hne : os ≠ [])
    (hslash : 0x2f ∉ os) : name ≠ "" ∧ '/' ∉ name.toList := by
  have hutf8 := utf8_of_toStr h
  constructor
  · rintro rfl
    exact hne hutf8.symm
  · intro hmem
    apply hslash
    rw [← hutf8]
    exact List.mem_flatMap.mpr ⟨'/', hmem, by decide⟩

/-- The path is the other one, or a path below it. -/
def Under (path path' : String) : Prop :=
  ∃ tail, path'.toList = path.toList ++ tail ∧ ∀ c ∈ tail.head?, c = '/'

theorem childPath_toList (pre name : String) : (childPath pre name).toList =
    (if pre = "" then [] else pre.toList ++ ['/']) ++ name.toList := by
  unfold childPath
  split
  · rfl
  · simp

theorem childPath_ne_empty {pre name : String} (hname : name ≠ "") : childPath pre name ≠ "" := by
  unfold childPath
  split
  · exact hname
  · intro h
    have := congrArg String.toList h
    simp at this

theorem under_pathFrom (path : List String) : ∀ {pre : String}, pre ≠ "" →
    Under pre (pathFrom pre path) := by
  induction path with
  | nil => exact fun _ => ⟨[], by simp [pathFrom], by simp⟩
  | cons name path ih =>
    intro pre hpre
    have hchild : childPath pre name ≠ "" := by
      rw [childPath, if_neg hpre]
      intro h
      have := congrArg String.toList h
      simp at this
    obtain ⟨tail, htail, -⟩ := ih hchild
    rw [childPath_toList, if_neg hpre] at htail
    exact ⟨'/' :: name.toList ++ tail, by simpa [pathFrom] using htail, by simp⟩

/-- Paths below two names of one directory differ. -/
theorem name_eq_of_under {pre name name' path : String} (hname : '/' ∉ name.toList)
    (hname' : '/' ∉ name'.toList) (h : Under (childPath pre name) path)
    (h' : Under (childPath pre name') path) : name = name' := by
  obtain ⟨tail, htail, hslash⟩ := h
  obtain ⟨tail', htail', hslash'⟩ := h'
  rw [htail, childPath_toList, childPath_toList, List.append_assoc, List.append_assoc] at htail'
  have hcut : ∀ {name tail : List Char}, '/' ∉ name → (∀ c ∈ tail.head?, c = '/') →
      (name ++ tail).takeWhile (· ≠ '/') = name := by
    intro name tail hname hhead
    rw [List.takeWhile_append_of_pos]
    · cases tail with
      | nil => simp
      | cons c tail => simp [hhead c rfl]
    · intro c hc
      have : c ≠ '/' := fun h => hname (h ▸ hc)
      simpa using this
  have := congrArg (List.takeWhile (· ≠ '/')) (List.append_cancel_left htail')
  rw [hcut hname hslash, hcut hname' hslash'] at this
  exact String.toList_inj.mp this

theorem FsNode.entry_path {node : FsNode} {path : String} {e : ManifestEntry}
    (h : node.entry P path = some e) : e.path = path := by
  cases node with
  | file mode bytes =>
    cases h
    rfl
  | symlink target =>
    obtain ⟨text, -, rfl⟩ := Option.map_eq_some_iff.mp h
    rfl
  | dir children => cases h
  | other => cases h

theorem FsNode.isEntry_of_entry {node : FsNode} {path : String} {e : ManifestEntry}
    (h : node.entry P path = some e) : node.isEntry = true := by
  cases node with
  | file mode bytes => rfl
  | symlink target => rfl
  | dir children => cases h
  | other => cases h

/-- What is listed in a directory is listed under one of its names. -/
theorem Listed.under {children : Children} {e : ManifestEntry} (h : Listed P gitlinks pre children e) :
    ∃ os node name, (os, node) ∈ children ∧ toStr os = some name ∧
      (name ≠ "" → Under (childPath pre name) e.path) := by
  obtain ⟨path, node, hat, -, hentry⟩ := h
  rw [node.entry_path hentry]
  cases hat with
  | here hmem hname =>
    exact ⟨_, _, _, hmem, hname, fun hne => under_pathFrom [] (childPath_ne_empty hne)⟩
  | inside hmem hname hsub =>
    exact ⟨_, _, _, hmem, hname, fun hne => under_pathFrom _ (childPath_ne_empty hne)⟩

theorem ValidChildren.name {children : Children} (h : ValidChildren children) {os : OsString}
    {node : FsNode} (hmem : (os, node) ∈ children) : os ≠ [] ∧ 0x2f ∉ os := by
  induction children with
  | nil => cases hmem
  | cons child rest ih =>
    obtain ⟨first, firstNode⟩ := child
    obtain ⟨⟨hne, hslash, -⟩, -, hrest⟩ := h
    rcases List.mem_cons.mp hmem with heq | hmem
    · cases heq
      exact ⟨hne, hslash⟩
    · exact ih hrest hmem

/-- The entries of one child have other paths than those of the children after it. -/
theorem childContents_disjoint {os : OsString} {node : FsNode} {rest : Children}
    (hvalid : ValidChildren ((os, node) :: rest)) {e e' : ManifestEntry}
    (he : e ∈ childContents P gitlinks pre (os, node)) (he' : e' ∈ dirContents P gitlinks pre rest) :
    e.path ≠ e'.path := by
  intro hpath
  have hlisted : Listed P gitlinks pre [(os, node)] e := by
    rw [← mem_dirContents, dirContents_eq_flatMap, List.flatMap_singleton]
    exact he
  obtain ⟨os₁, node₁, name, hmem, hname, hunder⟩ := hlisted.under
  obtain ⟨os', node', name', hmem', hname', hunder'⟩ := ((mem_dirContents rest pre e').mp he').under
  cases List.mem_singleton.mp hmem
  obtain ⟨⟨hne, hslash, hother⟩, -, hrest⟩ := hvalid
  obtain ⟨hne', hslash'⟩ := hrest.name hmem'
  have hvalidName := toStr_valid hname hne hslash
  have hvalidName' := toStr_valid hname' hne' hslash'
  have hunder' := hunder' hvalidName'.1
  rw [← hpath] at hunder'
  have hsame := name_eq_of_under hvalidName.2 hvalidName'.2 (hunder hvalidName.1) hunder'
  apply hother (os', node') hmem'
  rw [← utf8_of_toStr hname', ← hsame, utf8_of_toStr hname]

mutual

theorem nodup_contents : ∀ (node : FsNode) (path : String), node.Valid →
    ((node.contents P gitlinks path).map ManifestEntry.path).Nodup
  | .file mode bytes, path, _ => by simp [FsNode.contents]
  | .symlink target, path, _ => by
    rw [FsNode.contents]
    cases toStr target <;> simp
  | .dir children, path, hvalid => nodup_dirContents children path hvalid
  | .other, path, _ => by simp [FsNode.contents]

theorem nodup_dirContents : ∀ (children : Children) (pre : String), ValidChildren children →
    ((dirContents P gitlinks pre children).map ManifestEntry.path).Nodup
  | [], pre, _ => by simp [dirContents]
  | (os, node) :: rest, pre, hvalid => by
    have hchild : ((childContents P gitlinks pre (os, node)).map ManifestEntry.path).Nodup := by
      unfold childContents
      split
      · simp
      · split
        · simp
        · exact nodup_contents node _ hvalid.2.1
    rw [dirContents, List.map_append]
    refine List.nodup_append.mpr ⟨hchild, nodup_dirContents rest pre hvalid.2.2, ?_⟩
    intro path hpath path' hpath'
    obtain ⟨e, he, rfl⟩ := List.mem_map.mp hpath
    obtain ⟨e', he', rfl⟩ := List.mem_map.mp hpath'
    exact childContents_disjoint hvalid he he'

end

/-! ## The contract -/

theorem At.ne_nil {children : Children} {path : List String} {node : FsNode}
    (h : At children path node) : path ≠ [] := by
  cases h <;> simp

/-- The entries of the gitlinks. -/
def linkEntries (P : Platform) (gitlinks : Gitlinks) : List ManifestEntry :=
  gitlinks.toList.filterMap fun link => P.gitlinkEntry link.1 link.2

theorem mem_linkEntries {e : ManifestEntry} : e ∈ linkEntries P gitlinks ↔
    ∃ path oid, gitlinks[path]? = some oid ∧ P.gitlinkEntry path oid = some e := by
  simp only [linkEntries, List.mem_filterMap, Prod.exists,
    ExtTreeMap.mem_toList_iff_getElem?_eq_some]

/-- Every OID of the map is 40 or 64 lowercase hex characters. -/
def ValidOids (gitlinks : Gitlinks) : Prop :=
  ∀ path oid : String, gitlinks[path]? = some oid → validOid oid = true

theorem mem_gitlinks_of_link {path oid : String} (h : gitlinks[path]? = some oid) :
    path ∈ gitlinks := by
  rw [ExtTreeMap.mem_iff_isSome_getElem?, h]
  rfl

theorem map_path_linkEntries (hoid : ValidOids gitlinks) :
    (linkEntries P gitlinks).map ManifestEntry.path = gitlinks.keys := by
  rw [← ExtTreeMap.map_fst_toList_eq_keys, linkEntries, List.map_filterMap, ← List.filterMap_eq_map]
  apply List.filterMap_congr
  intro link hlink
  have hvalid := hoid link.1 link.2 (ExtTreeMap.mem_toList_iff_getElem?_eq_some.mp hlink)
  rw [Platform.gitlinkEntry, if_pos hvalid]
  rfl

/-- A walked path is not a path of the map: the walk would have skipped it. -/
theorem dirContents_not_gitlink {children : Children} {e : ManifestEntry}
    (he : e ∈ dirContents P gitlinks "" children) : e.path ∉ gitlinks := by
  obtain ⟨path, node, hat, hvisible, hentry⟩ := (mem_dirContents children "" e).mp he
  rw [node.entry_path hentry]
  exact hvisible.2 path hat.ne_nil (List.prefix_refl _)

/-- All the gitlinks are added. -/
theorem addGitlinks_eq {walkedPaths : ExtTreeSet String} {links : List (String × String)}
    (hwalked : ∀ link ∈ links, link.1 ∉ walkedPaths) (hoid : ∀ link ∈ links, validOid link.2 = true) :
    ∀ out, links.foldlM (P.addGitlink walkedPaths) out =
      .ok (out ++ links.filterMap fun link => P.gitlinkEntry link.1 link.2) := by
  induction links with
  | nil =>
    intro out
    rw [List.filterMap_nil, List.append_nil]
    rfl
  | cons link links ih =>
    intro out
    have hentry : P.gitlinkEntry link.1 link.2 = some ⟨link.1, .gitlink, P.sha256Utf8 link.2⟩ := by
      rw [Platform.gitlinkEntry, if_pos (hoid link List.mem_cons_self)]
    have hadd : P.addGitlink walkedPaths out link =
        .ok (out ++ [⟨link.1, .gitlink, P.sha256Utf8 link.2⟩]) := by
      rw [Platform.addGitlink, if_neg (hwalked link List.mem_cons_self), hentry]
    rw [List.foldlM_cons, hadd]
    refine (ih (fun l hl => hwalked l (List.mem_cons_of_mem _ hl))
      (fun l hl => hoid l (List.mem_cons_of_mem _ hl)) _).trans ?_
    rw [List.filterMap_cons, hentry]
    simp

section Contract

variable {t : Worktree} (hutf8 : Utf8Children t.children)
  (hoid : ValidOids gitlinks)
include hutf8 hoid

/-- **The walk always succeeds**, and lists what is visible. -/
theorem manifestFromDir_lists :
    ∃ entries, P.manifestFromDir gitlinks t.children = .ok entries ∧ P.Lists t gitlinks entries := by
  have hstart : Walk.Inv P gitlinks (dirContents P gitlinks "" t.children) "" []
      { stack := [(t.children, "")] } := by
    refine ⟨?_, by simp, trivial, ?_⟩
    · simp [Walk.rest]
    · intro d hd
      rw [List.mem_singleton.mp hd]
      exact hutf8
  obtain ⟨w, hloop, hout, hwalked⟩ := walkLoop_contents _ hstart
  have hlinks : ∀ link ∈ gitlinks.toList, link.1 ∉ w.walkedPaths := by
    intro link hlink hmem
    obtain ⟨e, he, hpath⟩ := List.mem_map.mp ((hwalked _).mp hmem)
    refine dirContents_not_gitlink (hout.mem_iff.mp he) ?_
    rw [hpath]
    exact mem_gitlinks_of_link (ExtTreeMap.mem_toList_iff_getElem?_eq_some.mp hlink)
  have hvalid : ∀ link ∈ gitlinks.toList, validOid link.2 = true := fun link hlink =>
    hoid link.1 link.2 (ExtTreeMap.mem_toList_iff_getElem?_eq_some.mp hlink)
  refine ⟨w.out ++ linkEntries P gitlinks, bind_eq_ok.mpr ⟨w, hloop, addGitlinks_eq hlinks hvalid _⟩,
    ?_, ?_⟩
  · rw [List.map_append]
    refine List.nodup_append.mpr ⟨?_, ?_, ?_⟩
    · exact (hout.map _).nodup_iff.mpr (nodup_dirContents t.children "" t.valid)
    · rw [map_path_linkEntries hoid]
      exact ExtTreeMap.nodup_keys
    · intro path hpath path' hpath' heq
      obtain ⟨e, he, rfl⟩ := List.mem_map.mp hpath
      rw [map_path_linkEntries hoid, ← heq, ExtTreeMap.mem_keys] at hpath'
      exact dirContents_not_gitlink (hout.mem_iff.mp he) hpath'
  · intro e
    rw [List.mem_append, hout.mem_iff, mem_dirContents, mem_linkEntries]
    rfl

theorem not_follows_of_collides (hcollides : t.Collides gitlinks) : ¬P.Follows t gitlinks := by
  intro hfollows
  obtain ⟨e, he⟩ := hfollows.collision hcollides
  obtain ⟨entries, hentries, -⟩ := manifestFromDir_lists (P := P) hutf8 hoid
  rw [he] at hentries
  cases hentries

/-- What stands at hidden paths does not matter. -/
theorem manifestFromDir_hidden {t' : Worktree} (hutf8' : Utf8Children t'.children)
    (hagree : t.AgreesOutside t' gitlinks) :
    SameOutcome (P.manifestFromDir gitlinks t.children) (P.manifestFromDir gitlinks t'.children) := by
  obtain ⟨entries, hentries, hlists⟩ := manifestFromDir_lists (P := P) hutf8 hoid
  obtain ⟨entries', hentries', hlists'⟩ := manifestFromDir_lists (P := P) hutf8' hoid
  rw [hentries, hentries']
  refine (List.perm_ext_iff_of_nodup hlists.paths.of_map hlists'.paths.of_map).mpr ?_
  intro e
  rw [hlists.mem, hlists'.mem]
  refine or_congr_left (exists_congr fun path => exists_congr fun node => ?_)
  constructor
  · rintro ⟨hat, hvisible, hentry⟩
    exact ⟨(hagree path hvisible node (node.isEntry_of_entry hentry)).mp hat, hvisible, hentry⟩
  · rintro ⟨hat, hvisible, hentry⟩
    exact ⟨(hagree path hvisible node (node.isEntry_of_entry hentry)).mpr hat, hvisible, hentry⟩

end Contract

/-- A worktree with one file, `f`. -/
def oneFile : Worktree where
  children := [(utf8 ['f'], .file 0o644 [])]
  valid := ⟨⟨by decide, by decide, by simp⟩, trivial, trivial⟩

/-- One gitlink. -/
def oneGitlink (path : String) : Gitlinks :=
  (∅ : Gitlinks).insert path (String.ofList (List.replicate 40 'a'))

theorem oneFile_utf8 : Utf8Children oneFile.children := ⟨by decide, trivial, trivial⟩

theorem oneGitlink_valid (path : String) : ValidOids (oneGitlink path) := by
  intro path' oid h
  rw [oneGitlink, ExtTreeMap.getElem?_insert] at h
  split at h
  · cases h
    decide
  · simp at h

end Bellbook
