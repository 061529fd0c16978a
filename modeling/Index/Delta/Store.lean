import Index.Delta.Diff
import Std.Data.ExtTreeMap

/-! # The state of managed files

The store has one directory for every managed file, named by a hash of the file's path: a record, the base that was
last adopted, and the incoming base while a conflict is unresolved.  What a verb does with one file it does with the
file and this directory, and what it journals it returns. -/

namespace Index.Delta

open Index.Lib

inductive Persistence where
  | ephemeral
  | durable
deriving DecidableEq

structure Meta where
  path : String
  source : String
  stagedSource : Option String
  sourceFile : Option String
  declaredAt : Option String
  format : Format
  persistence : Persistence
  snoozed : Option String
deriving DecidableEq

/-- The file `meta.json`.  A damaged one is there but cannot be read or parsed. -/
inductive Record where
  | missing
  | damaged
  | present (data : Meta)
deriving DecidableEq

/-- The directory of a managed file. -/
structure Slot where
  record : Record
  base : Option Bytes
  staged : Option Bytes
deriving DecidableEq

/-- A directory without files, or none. -/
def Slot.empty : Slot := ⟨.missing, none, none⟩

/-- What is at the path of a managed file.  A file has permissions; what is there and is neither readable nor writable
may as well be a directory.  A link leads into the Nix store, to a readable file if to any. -/
inductive Target where
  | absent
  | file (bytes : Bytes) (readable writable : Bool)
  | link (destination : Option Bytes)
deriving DecidableEq

namespace Target

/-- `fs::read` -/
def read : Target → Option Bytes
  | file bytes true _ => some bytes
  | link destination => destination
  | _ => none

/-- The contents, whether they can be read or not. -/
def contents : Target → Option Bytes
  | file bytes _ _ => some bytes
  | link destination => destination
  | absent => none

/-- `Path::exists` -/
def pathExists : Target → Bool
  | absent => false
  | file _ _ _ => true
  | link destination => destination.isSome

def isSymlink : Target → Bool
  | link _ => true
  | _ => false

def isWritable : Target → Bool
  | file _ _ writable => writable
  | _ => true

/-- `write_creating_parents`: a file is written in place and keeps its permissions, a link is replaced. -/
def write (bytes : Bytes) : Target → Option Target
  | file _ readable true => some (file bytes readable true)
  | file _ _ false => none
  | _ => some (file bytes true true)

end Target

/-- A managed file as the verbs see it. -/
structure View where
  slot : Slot
  target : Target
deriving DecidableEq

inductive Event where
  | managed
  | keptExisting (yourEdits : List Op)
  | reseeded (cause : String) (archived : List Op)
  | seeded
  | baseUpdated
  | staged
  | unmanaged
  | discarded (dropped : List Op)
  | adopted
  | snoozed

inductive CmdError where
  | homeUnset
  | sourceUnreadable
  | recordDamaged
  | baseUnreadable
  | targetUnwritable
  | notManaged
  | notInConflict
  | cleanFile
  | inConflict
deriving DecidableEq

/-- What a verb did: the file after it, the journal entries and the result.  What was done before an error stays done. -/
structure Effect (α : Type) where
  view : View
  events : List Event
  result : Except CmdError α

namespace Effect

variable {α β : Type}

def failed (view : View) (error : CmdError) : Effect α := ⟨view, [], .error error⟩

def map (f : α → β) (effect : Effect α) : Effect β := ⟨effect.view, effect.events, effect.result.map f⟩

end Effect

namespace View

def writeBase (view : View) (bytes : Bytes) : View := { view with slot := { view.slot with base := some bytes } }

def writeStaged (view : View) (bytes : Bytes) : View := { view with slot := { view.slot with staged := some bytes } }

def clearStaged (view : View) : View := { view with slot := { view.slot with staged := none } }

def saveMeta (view : View) (data : Meta) : View := { view with slot := { view.slot with record := .present data } }

end View

end Index.Delta
