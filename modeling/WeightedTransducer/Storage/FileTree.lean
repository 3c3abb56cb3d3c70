import WeightedTransducer.Storage.Basic
import WeightedTransducer.Text.Pieces

/-!
# File trees

A `FileTree` is a storage of files and directories whose only failures are paths that lead to the
wrong thing or nowhere.  A path is a list of names between slashes, followed one step at a time:
`FileTree.step` says where one name leads, and that a step can only be taken from a directory.  So
a path that ends in a slash leads to a directory or fails.  `FileTree.load_save` says that a file
that was saved is found again under its path.
-/

namespace WeightedTransducer

/-- What a place in a file tree holds. -/
inductive Node where
  /-- A file with its contents. -/
  | file (contents : Bytes)
  /-- A directory. -/
  | directory
  deriving DecidableEq, Repr

/-- A place in a file tree: its name, the name of the directory that it is in, and so on up to the
root. -/
abbrev Place := List String

/-- A tree of files and directories. -/
structure FileTree where
  /-- What the places hold, apart from the directories on the way to `home`. -/
  nodes : List (Place × Node) := []
  /-- The directory in which relative paths start. -/
  home : Place := ["home"]
  deriving DecidableEq, Repr

namespace FileTree

/-- What a place holds. -/
def node? (tree : FileTree) (place : Place) : Option Node :=
  if place.isSuffixOf tree.home then some .directory
  else (tree.nodes.find? (·.1 == place)).map Prod.snd

/-- The tree with a node put at a place. -/
def put (tree : FileTree) (place : Place) (node : Node) : FileTree :=
  { tree with nodes := (place, node) :: tree.nodes.filter (·.1 != place) }

/-- How many bytes a name may have. -/
def longestName : Nat := 255

/-- The place to which a name leads from another place. -/
def step (tree : FileTree) (here : Place) (name : String) : Except StorageFailure Place :=
  match tree.node? here with
  | none => .error .notFound
  | some (.file _) => .error .notDirectory
  | some .directory =>
    if name = "" || name = "." then .ok here
    else if name = ".." then .ok here.tail
    else if longestName < name.utf8ByteSize then .error .nameTooLong
    else .ok (name :: here)

/-- The names of a path. -/
def names (path : String) : List String :=
  (pieces (· == '/') path.toList).map String.ofList

/-- The place where a path starts. -/
def start (tree : FileTree) (path : String) : Place :=
  if path.toList.head? = some '/' then [] else tree.home

/-- The place to which some names lead from the start of a path. -/
def follow (tree : FileTree) (path : String) (names : List String) :
    Except StorageFailure Place :=
  if '\x00' ∈ path.toList then .error .nullInPath
  else names.foldlM tree.step (tree.start path)

/-- The place to which a path leads; there need be nothing there. -/
def place (tree : FileTree) (path : String) : Except StorageFailure Place :=
  tree.follow path (names path)

/-- The place of a file to be written.  A path that ends in a slash can only mean a directory. -/
def target (tree : FileTree) (path : String) : Except StorageFailure Place := do
  let place ← tree.follow path ((names path).reverse.dropWhile (· == "")).reverse
  if (names path).getLast? = some "" || tree.node? place = some .directory then
    .error .isDirectory
  else .ok place

/-- Makes the directories to which some names lead one after another, as far as nothing is in the
way. -/
def makeDirectories (tree : FileTree) (here : Place) : List String → FileTree
  | [] => tree
  | name :: rest =>
    match tree.step here name with
    | .error _ => tree
    | .ok there =>
      let tree := if (tree.node? there).isSome then tree else tree.put there .directory
      tree.makeDirectories there rest

/-- Makes the directory to which a path leads, and those on the way. -/
def makeDirectory (tree : FileTree) (path : String) : FileTree :=
  tree.makeDirectories (tree.start path) (names path)

instance : Storage FileTree where
  load tree path := do
    match tree.node? (← tree.place path) with
    | some (.file contents) => .ok contents
    | some .directory => .error .isDirectory
    | none => .error .notFound
  save tree path contents :=
    match tree.target path with
    | .error failure => (.error failure, tree)
    | .ok place => (.ok (), tree.put place (.file contents))

/-! ## A saved file is there -/

/-- Where a file is put, there is that file. -/
theorem node?_put (tree : FileTree) {place : Place} (node : Node)
    (h : tree.node? place ≠ some .directory) : (tree.put place node).node? place = some node := by
  unfold node? at h ⊢
  split at h
  · simp at h
  · rename_i hn
    simp [put, hn]

/-- Elsewhere nothing changes. -/
theorem node?_put_of_ne (tree : FileTree) {place other : Place} (node : Node)
    (h : other ≠ place) : (tree.put place node).node? other = tree.node? other := by
  unfold node?
  split
  · simp_all [put]
  · rename_i hn
    have hf : (tree.nodes.filter (·.1 != place)).find? (·.1 == other) =
        tree.nodes.find? (·.1 == other) := by
      rw [List.find?_filter]
      congr 1
      funext entry
      by_cases he : entry.1 = other <;> simp [he, h]
    simp_all [put, Ne.symm h]

/-- A step is taken from a directory. -/
theorem node?_of_step {tree : FileTree} {here there : Place} {name : String}
    (h : tree.step here name = .ok there) : tree.node? here = some .directory := by
  unfold step at h
  split at h
  · simp at h
  · simp at h
  · assumption

/-- A file put where no directory is stands in no way that could be taken before. -/
theorem foldlM_step_put {tree : FileTree} {here there place : Place} {names : List String}
    (node : Node) (hp : tree.node? place ≠ some .directory)
    (h : names.foldlM tree.step here = .ok there) :
    names.foldlM (tree.put place node).step here = .ok there := by
  induction names generalizing here with
  | nil => exact h
  | cons name rest ih =>
    rw [List.foldlM_cons] at h ⊢
    cases hs : tree.step here name with
    | error failure => simp [hs, bind, Except.bind] at h
    | ok next =>
      have hne : here ≠ place := fun he => hp (he ▸ node?_of_step hs)
      have hs' : (tree.put place node).step here name = .ok next := by
        rw [← hs]
        unfold step
        rw [node?_put_of_ne tree node hne]
      rw [hs] at h
      rw [hs']
      exact ih h

/-- The target of a path is the place to which the path leads, and no directory. -/
theorem place_of_target {tree : FileTree} {path : String} {place : Place}
    (h : tree.target path = .ok place) :
    tree.place path = .ok place ∧ tree.node? place ≠ some .directory := by
  unfold target at h
  cases hf : tree.follow path ((names path).reverse.dropWhile (· == "")).reverse with
  | error failure => simp [hf, bind, Except.bind] at h
  | ok found =>
    simp only [hf, bind, Except.bind] at h
    split at h
    · simp at h
    · rename_i hn
      simp only [Bool.or_eq_true, decide_eq_true_eq, not_or] at hn
      obtain ⟨hlast, hnode⟩ := hn
      cases h
      have hd : ((names path).reverse.dropWhile (· == "")).reverse = names path := by
        rw [List.getLast?_eq_head?_reverse] at hlast
        cases hr : (names path).reverse with
        | nil => simpa using hr.symm
        | cons last front =>
          have : (last == "") = false := by simpa [hr] using hlast
          rw [List.dropWhile_cons_of_neg (by simp [this]), ← hr, List.reverse_reverse]
      exact ⟨by rw [FileTree.place, ← hf, hd], hnode⟩

/-- What was saved is loaded. -/
theorem load_save {tree saved : FileTree} {path : String} {contents : Bytes}
    (h : Storage.save tree path contents = (.ok (), saved)) :
    Storage.load saved path = .ok contents := by
  simp only [Storage.save] at h
  split at h
  · simp at h
  · rename_i place ht
    obtain ⟨hplace, hnode⟩ := place_of_target ht
    simp only [Prod.mk.injEq, true_and] at h
    subst h
    have hfollow : (tree.put place (.file contents)).place path = .ok place := by
      unfold FileTree.place follow at hplace ⊢
      split at hplace
      · simp at hplace
      · rename_i hnull
        rw [if_neg hnull]
        exact foldlM_step_put (.file contents) hnode hplace
    simp only [Storage.load, hfollow, bind, Except.bind, node?_put tree _ hnode]

end FileTree
end WeightedTransducer
