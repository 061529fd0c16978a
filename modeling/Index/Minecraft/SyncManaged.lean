import Index.Lib.FileTree
import Index.Lib.IndexMap
import Index.Lib.Text

/-! # Managed files of a Minecraft server

The files that a generation of the configuration manages are put below a directory that the server writes to as well.
A manifest beside it names them, and the next generation removes what the manifest names before it puts its own. -/

namespace Index.Minecraft

open Index.Lib

abbrev Bytes := List UInt8

/-- The directory that holds the managed files.  A file is what its name resolves to: its contents and its canonical
path. -/
inductive Source where
  | file (resolved : Option (Bytes × String))
  | dir (entries : List (String × Source))

inductive Materialize where
  | symlink
  | copy

/-- What a managed file is put as. -/
inductive Content where
  | link (destination : String)
  | bytes (bytes : Bytes)
deriving DecidableEq

inductive SyncError where
  | unsafePath (rel : String)
  | sourceUnreadable (rel : String)
  | file (rel : String) (error : FileError)

/-! ## Paths -/

def joinPath (path : List String) : String := String.ofList (['/'].intercalate (path.map String.toList))

def segments (rel : String) : List String := (rel.toList.splitOn '/').map String.ofList

def isAbsolute (path : String) : Bool := path.toList.head? = some '/'

def validateRelPathShape (rel : String) : Bool :=
  rel ≠ "" && !isAbsolute rel && (segments rel).all fun segment => segment ≠ "" && segment ≠ "." && segment ≠ ".."

def isSafeChar (char : Char) : Bool := char.isAlphanum || char ∈ ['.', '_', '/', '+', '-']

def validateRelPath (rel : String) : Bool := validateRelPathShape rel && rel.toList.all isSafeChar

/-! ## The source -/

def isPluginName (rel : String) : Bool := ".plugin-name".toList.reverse.isPrefixOf rel.toList.reverse

mutual

/-- The managed files below an entry of a directory. -/
def collectEntry (path : List String) : Source → List String
  | .dir entries => collectManagedFiles path entries
  | .file _ =>
    let rel := String.ofList ((joinPath path).toList.map fun char => if char = '\\' then '/' else char)
    if isPluginName rel then [] else [rel]

def collectManagedFiles (path : List String) : List (String × Source) → List String
  | [] => []
  | (name, source) :: entries => collectEntry (path ++ [name]) source ++ collectManagedFiles path entries

end

def managedFiles (entries : List (String × Source)) : List String :=
  (collectManagedFiles [] entries).mergeSort fun left right => left ≤ right

/-- What a path below the directory leads to. -/
def find : List (String × Source) → List String → Option Source
  | entries, [] => some (.dir entries)
  | entries, name :: path =>
    match IndexMap.get entries name, path with
    | some (.dir entries), path => find entries path
    | some (.file resolved), [] => some (.file resolved)
    | _, _ => none

/-! ## The manifest -/

structure ManifestEntry where
  rel : String
  target : Option String
deriving DecidableEq

/-- `str::rsplit_once` at a character. -/
def rsplitOnce (separator : Char) (text : String) : Option (String × String) :=
  match text.toList.reverse.dropWhile (· ≠ separator) with
  | [] => none
  | _ :: before =>
    some (String.ofList before.reverse, String.ofList (text.toList.reverse.takeWhile (· ≠ separator)).reverse)

def manifestEntry (line : String) : ManifestEntry :=
  match rsplitOnce ' ' line with
  | some (rel, target) => if isAbsolute target then ⟨rel, some target⟩ else ⟨line, none⟩
  | none => ⟨line, none⟩

def readManifestLines (manifest : Option String) : List String := (manifest.map lines).getD []

/-! ## Syncing -/

/-- The directory with the managed files in it, and the manifest. -/
structure Target where
  tree : FileTree Content
  manifest : Option String

section Sync

variable (sourceDir : String) (source : List (String × Source)) (preserveRemoved : List String) (materialize : Materialize)

def forFile {α : Type} (rel : String) : Except FileError α → Except SyncError α := Except.mapError (SyncError.file rel)

/-- Removes what a line of the manifest names. -/
def removeLine (tree : FileTree Content) (line : String) : Except SyncError (FileTree Content) :=
  let rel := (manifestEntry line).rel
  if rel = "" ∨ rel ∈ preserveRemoved then .ok tree
  else if validateRelPathShape rel then forFile rel (tree.removeIfPresent (segments rel))
  else .error (.unsafePath rel)

def content (rel : String) (bytes : Bytes) : Content :=
  match materialize with
  | .symlink => .link (sourceDir ++ "/" ++ rel)
  | .copy => .bytes bytes

/-- Puts a managed file in its place and adds it to the lines of the new manifest. -/
def placeFile (placed : FileTree Content × String) (rel : String) : Except SyncError (FileTree Content × String) := do
  if validateRelPath rel then
    let tree ← forFile rel (placed.1.createDirAll (segments rel).dropLast)
    let tree ← forFile rel (tree.removeIfPresent (segments rel))
    match find source (segments rel) with
    | some (.file (some (bytes, canonical))) =>
      let tree ← forFile rel (tree.create (segments rel) (content sourceDir materialize rel bytes))
      .ok (tree, placed.2 ++ rel ++ " " ++ canonical ++ "\n")
    | _ => .error (.sourceUnreadable rel)
  else .error (.unsafePath rel)

def syncTree (target : Target) : Except SyncError Target := do
  let tree ← (readManifestLines target.manifest).foldlM (removeLine preserveRemoved) target.tree
  let placed ← (managedFiles source).foldlM (placeFile sourceDir source materialize) (tree, "")
  .ok ⟨placed.1, some placed.2⟩

end Sync

end Index.Minecraft
