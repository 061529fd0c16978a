import Mathlib.Data.List.Infix
import Index.Lib.Outcome

/-! # File trees

A file tree by its paths: every path that something is at has directories above it.  Files are removed one by one and
made below directories that are made as needed; directories are never removed. -/

namespace Index.Lib

inductive Node (α : Type*) where
  | dir
  | file (data : α)
deriving DecidableEq

structure FileTree (α : Type*) where
  node : List String → Option (Node α)
  root : node [] = some .dir
  closed : ∀ path name, node (path ++ [name]) ≠ none → node path = some .dir

def Node.isFile {α : Type*} : Node α → Bool
  | dir => false
  | file _ => true

inductive FileError where
  | notFound
  | notDirectory
  | isDirectory
  | alreadyExists
deriving DecidableEq

namespace FileTree

variable {α : Type*}

@[ext] theorem ext {left right : FileTree α} (same : ∀ path, left.node path = right.node path) : left = right := by
  obtain ⟨leftNode, _, _⟩ := left
  obtain ⟨rightNode, _, _⟩ := right
  obtain rfl : leftNode = rightNode := funext same
  rfl

/-- Trees with the same directories and the same files. -/
theorem eq_of_dirs_files {left right : FileTree α} (dirs : ∀ path, left.node path = some .dir ↔ right.node path = some .dir)
    (files : ∀ path data, left.node path = some (.file data) ↔ right.node path = some (.file data)) : left = right := by
  ext path : 1
  cases found : left.node path with
  | some node =>
    cases node with
    | dir => exact ((dirs path).mp found).symm
    | file data => exact ((files path data).mp found).symm
  | none =>
    cases other : right.node path with
    | none => rfl
    | some node =>
      cases node with
      | dir => cases found.symm.trans ((dirs path).mpr other)
      | file data => cases found.symm.trans ((files path data).mpr other)

/-- A tree with nothing in it. -/
def empty : FileTree α where
  node path := if path = [] then some .dir else none
  root := rfl
  closed path name there := absurd (if_neg (by simp)) there

variable {path : List String}

/-- Above everything there is a directory. -/
theorem dir_of_below (tree : FileTree α) {rest : List String} (there : tree.node (path ++ rest) ≠ none) (below : rest ≠ []) :
    tree.node path = some .dir := by
  induction rest using List.reverseRecOn with
  | nil => exact absurd rfl below
  | append_singleton rest name ih =>
    rw [← List.append_assoc] at there
    have parent := tree.closed _ _ there
    by_cases direct : rest = []
    · rwa [direct, List.append_nil] at parent
    · exact ih (by simp [parent]) direct

/-- Whether a file is on the way to a path. -/
def blocks (tree : FileTree α) (path : List String) : Bool :=
  path.inits.any fun place => place ≠ path && (tree.node place).any Node.isFile

theorem any_isFile {node : Option (Node α)} : node.any Node.isFile = true ↔ ∃ data, node = some (.file data) := by
  cases node with
  | none => simp
  | some node => cases node <;> simp [Node.isFile]

variable {tree : FileTree α}

theorem blocks_iff :
    tree.blocks path = true ↔ ∃ place data, place <+: path ∧ place ≠ path ∧ tree.node place = some (.file data) := by
  simp only [blocks, List.any_eq_true, List.mem_inits, Bool.and_eq_true, decide_eq_true_eq, any_isFile, exists_and_left]

/-- Nothing is in the way of what is there. -/
theorem blocks_of_there (there : tree.node path ≠ none) : tree.blocks path = false := by
  rw [← Bool.not_eq_true, blocks_iff]
  rintro ⟨place, data, ⟨rest, rfl⟩, differ, isFile⟩
  have above : tree.node place = some .dir := tree.dir_of_below there fun (whole : rest = []) => differ (by simp [whole])
  cases isFile.symm.trans above

/-! ## Removing files -/

/-- The tree without a file. -/
def without (tree : FileTree α) (path : List String) : FileTree α where
  node place := if place = path ∧ (tree.node path).any Node.isFile then none else tree.node place
  root := by
    rw [if_neg]
    · exact tree.root
    · rintro ⟨rfl, isFile⟩
      simp [tree.root, Node.isFile] at isFile
  closed path' name there := by
    have parent : tree.node path' = some .dir := tree.closed path' name fun absent => there (by simp [absent])
    rw [if_neg]
    · exact parent
    · rintro ⟨rfl, isFile⟩
      simp [parent, Node.isFile] at isFile

/-- `fs::remove_file` -/
def removeFile (tree : FileTree α) (path : List String) : Except FileError (FileTree α) :=
  match tree.node path with
  | some (.file _) => .ok (tree.without path)
  | some .dir => .error .isDirectory
  | none => .error (if tree.blocks path then .notDirectory else .notFound)

/-- Removing a file that may not be there. -/
def removeIfPresent (tree : FileTree α) (path : List String) : Except FileError (FileTree α) :=
  match tree.removeFile path with
  | .ok tree => .ok tree
  | .error .notFound => .ok tree
  | .error error => .error error

theorem node_without (plain : tree.node path ≠ some .dir) (place : List String) :
    (tree.without path).node place = if place = path then none else tree.node place := by
  show (if place = path ∧ (tree.node path).any Node.isFile then none else tree.node place) = _
  by_cases here : place = path
  · subst here
    cases found : tree.node place with
    | none => simp
    | some node =>
      cases node with
      | dir => exact absurd found plain
      | file data => simp [Node.isFile]
  · simp [here]

/-! ## Making files -/

/-- `fs::create_dir_all` -/
def createDirAll (tree : FileTree α) (path : List String) : Except FileError (FileTree α) :=
  if obstructed : ∃ place ∈ path.inits, (tree.node place).any Node.isFile = true then .error .notDirectory
  else .ok {
    node place := if place <+: path ∧ tree.node place = none then some .dir else tree.node place
    root := by simp [tree.root]
    closed := by
      intro place name there
      by_cases made : place ++ [name] <+: path ∧ tree.node (place ++ [name]) = none
      · have leads : place <+: path := (List.prefix_append ..).trans made.1
        cases found : tree.node place with
        | none => simp [leads]
        | some node =>
          cases node with
          | dir => simp
          | file data => exact absurd ⟨place, (List.mem_inits ..).mpr leads, by simp [found, Node.isFile]⟩ obstructed
      · rw [if_neg made] at there
        rw [tree.closed place name there, if_neg (by simp)] }

/-- A new file where nothing is, in a directory. -/
def create [DecidableEq α] (tree : FileTree α) (path : List String) (data : α) : Except FileError (FileTree α) :=
  if there : tree.node path ≠ none then .error .alreadyExists
  else if parent : tree.node path.dropLast = some .dir then .ok {
    node place := if place = path then some (.file data) else tree.node place
    root := by
      rw [if_neg]
      · exact tree.root
      · rintro rfl
        exact there (by simp [tree.root])
    closed := by
      intro place name found
      by_cases made : place ++ [name] = path
      · rw [← made, List.dropLast_concat] at parent
        rw [if_neg, parent]
        rintro rfl
        exact there (by simp [parent])
      · rw [if_neg made] at found
        have above := tree.closed place name found
        rw [if_neg, above]
        rintro rfl
        exact there (by simp [above]) }
  else .error .notFound

/-! ## When they succeed -/

section Outcomes

variable {α : Type} {tree : FileTree α} {path : List String}

/-- Removal succeeds unless a directory is at the path or a file is on the way to it. -/
theorem succeedsIff_removeIfPresent : SucceedsIff (tree.node path ≠ some .dir ∧ tree.blocks path = false)
    (· = tree.without path) (tree.removeIfPresent path) := by
  rw [removeIfPresent, removeFile]
  cases found : tree.node path with
  | none =>
    cases blocked : tree.blocks path with
    | true => simp [SucceedsIff, Ensures]
    | false =>
      refine ⟨by simp, ext fun place => ?_⟩
      rw [node_without (by simp [found])]
      split_ifs with here
      · rw [here, found]
      · rfl
  | some node =>
    cases node with
    | dir => simp [SucceedsIff, Ensures]
    | file data => exact ⟨⟨by simp, blocks_of_there (by simp [found])⟩, rfl⟩

theorem succeedsIff_createDirAll : SucceedsIff (∀ place, place <+: path → ∀ data, tree.node place ≠ some (.file data))
    (fun result => ∀ place, result.node place = if place <+: path then some .dir else tree.node place) (tree.createDirAll path) := by
  rw [createDirAll]
  split_ifs with obstructed
  · intro free
    obtain ⟨place, leads, isFile⟩ := obstructed
    obtain ⟨data, found⟩ := any_isFile.mp isFile
    exact free place ((List.mem_inits ..).mp leads) data found
  · have free : ∀ place, place <+: path → ∀ data, tree.node place ≠ some (.file data) := fun place leads data found =>
      obstructed ⟨place, (List.mem_inits ..).mpr leads, any_isFile.mpr ⟨data, found⟩⟩
    refine ⟨free, fun place => ?_⟩
    show (if place <+: path ∧ tree.node place = none then some .dir else tree.node place) = _
    by_cases leads : place <+: path
    · cases found : tree.node place with
      | none => simp [leads]
      | some node =>
        cases node with
        | dir => simp
        | file data => exact absurd found (free place leads data)
    · simp [leads]

theorem succeedsIff_create [DecidableEq α] {data : α} : SucceedsIff (tree.node path = none ∧ tree.node path.dropLast = some .dir)
    (fun result => ∀ place, result.node place = if place = path then some (.file data) else tree.node place) (tree.create path data) := by
  rw [create]
  split_ifs with there parent
  · exact fun fits => there fits.1
  · exact ⟨⟨not_not.mp there, parent⟩, fun _ => rfl⟩
  · exact fun fits => parent fits.2

end Outcomes

end FileTree

end Index.Lib
