import Index.Lib.Pointwise
import Mathlib.Data.Fintype.Pi

/-! # The merge driver

The driver computes what changed from the base to theirs and applies it to ours.  The session extension of
SQLite does both, by its documented rules: a change that does not fit the row it meets is handed to the
conflict handler, and an abort rolls back all changes.  Tables are maps from the primary key to the columns. -/

namespace Index.Sqlmerge

open Index.Lib

/-- `ValueRef`; a real is the bits of its value. -/
inductive Value where
  | null
  | integer (value : Int)
  | real (bits : BitVec 64)
  | text (bytes : List UInt8)
  | blob (bytes : List UInt8)
deriving DecidableEq

/-- A table with a primary key: which of its columns are in the key. -/
structure Table where
  name : String
  pk : List Bool
  keyed : true ∈ pk
deriving DecidableEq

abbrev Table.Column (table : Table) := Fin table.pk.length

abbrev Table.Row (table : Table) := table.Column → Value

/-- A table and the values of a primary key. -/
structure Location where
  table : Table
  key : List Value
deriving DecidableEq

/-- The rows of a database by primary key. -/
abbrev Rows := (place : Location) → Option place.table.Row

/-! ## Changesets -/

/-- A change of a row; an update records the old values of the key and of the columns it changes, and the new
values of those. -/
inductive Change (table : Table) where
  | insert (new : table.Row)
  | delete (old : table.Row)
  | update (old new : table.Column → Option Value)

/-- What `Session::diff` records for a row. -/
def recordChange {table : Table} : Option table.Row → Option table.Row → Option (Change table)
  | none, none => none
  | none, some new => some (.insert new)
  | some old, none => some (.delete old)
  | some old, some new =>
    if old = new then none
    else some (.update (fun column => if table.pk.get column ∨ old column ≠ new column then some (old column) else none)
      (fun column => if old column ≠ new column then some (new column) else none))

/-- The changes of a database, in the order in which the session comes by its rows. -/
abbrev Changeset := List (Sigma fun place : Location => Change place.table)

/-- The changeset from a base to a side over the rows the session visits. -/
def changeset (visited : List Location) (base side : Rows) : Changeset :=
  visited.filterMap fun place => (recordChange (base place) (side place)).map fun change => ⟨place, change⟩

/-! ## The conflict handler -/

inductive ConflictType where
  | data
  | notFound
  | conflict
  | constraint
  | foreignKey
deriving DecidableEq

inductive ConflictAction where
  | omit
  | replace
  | abort
deriving DecidableEq

inductive Action where
  | insert
  | delete
  | update
deriving DecidableEq

/-- What the handler can ask about a conflict; a row it may not ask for is missing. -/
structure ChangesetItem where
  table : Table
  code : Action
  oldValue : Option table.Row
  newValue : Option table.Row
  conflict : Option table.Row
  fkConflicts : Nat

inductive ConflictPolicy where
  | abort
  | ours
  | theirs
  | appendOnly
deriving DecidableEq

structure RowConflict where
  table : String
  kind : String
  primaryKey : List String
  ours : List String
  theirs : List String
deriving DecidableEq

/-- `format!("{kind:?}")` -/
def ConflictType.debug : ConflictType → String
  | data => "SQLITE_CHANGESET_DATA"
  | notFound => "SQLITE_CHANGESET_NOTFOUND"
  | conflict => "SQLITE_CHANGESET_CONFLICT"
  | constraint => "SQLITE_CHANGESET_CONSTRAINT"
  | foreignKey => "SQLITE_CHANGESET_FOREIGN_KEY"

def valuesEqual : Value → Value → Bool
  | .null, .null => true
  | .integer x, .integer y => x = y
  | .real x, .real y => x = y
  | .text x, .text y => x = y
  | .blob x, .blob y => x = y
  | _, _ => false

def isConvergentDelete (kind : ConflictType) (item : ChangesetItem) : Bool :=
  kind = .notFound && item.code = .delete

/-- An insert over a row that equals it in every column. -/
def isBenignDuplicateInsert (kind : ConflictType) (item : ChangesetItem) : Bool :=
  kind = .conflict && item.table.pk.length ≠ 0 &&
    (List.finRange item.table.pk.length).all fun column =>
      match item.conflict, item.newValue with
      | some ours, some theirs => valuesEqual (ours column) (theirs column)
      | _, _ => false

inductive Resolution where
  | resolve (action : ConflictAction)
  | conflict

def resolveConflict (policy : ConflictPolicy) (kind : ConflictType) (action : Action) : Resolution :=
  match policy with
  | .abort => .conflict
  | .ours => .resolve .omit
  | .theirs =>
    match kind with
    | .data | .conflict => .resolve .replace
    | _ => .conflict
  | .appendOnly =>
    match action with
    | .insert => .resolve .omit
    | _ => .conflict

section

variable (renderReal : BitVec 64 → String)

def renderValue : Value → String
  | .null => "NULL"
  | .integer value => toString value
  | .real bits => renderReal bits
  | .text bytes =>
    match String.fromUTF8? ⟨bytes.toArray⟩ with
    | some text => "'" ++ text ++ "'"
    | none => "<" ++ toString bytes.length ++ " bytes text>"
  | .blob bytes => "<blob " ++ toString bytes.length ++ " bytes>"

/-- The key of a conflicting row: of an insert the new values, else the old ones or, failing them, the new. -/
def extractPrimaryKey (item : ChangesetItem) : List String :=
  ((List.finRange item.table.pk.length).filter fun column => item.table.pk.get column).map fun column =>
    let row := match item.code with
      | .insert => item.newValue
      | _ => item.oldValue.or item.newValue
    match row with
    | some row => renderValue renderReal (row column)
    | none => "?"

def renderRow (table : Table) (row : Option table.Row) : List String :=
  match row with
  | some row => (List.finRange table.pk.length).map fun column => renderValue renderReal (row column)
  | none => []

def describeConflict (kind : ConflictType) (item : ChangesetItem) : RowConflict :=
  match kind with
  | .foreignKey =>
    ⟨"<deferred foreign key>", kind.debug, [], [], [toString item.fkConflicts ++ " deferred FK violation(s)"]⟩
  | .data | .conflict =>
    ⟨item.table.name, kind.debug, extractPrimaryKey renderReal item, renderRow renderReal item.table item.conflict,
      renderRow renderReal item.table item.newValue⟩
  | .notFound | .constraint => ⟨item.table.name, kind.debug, extractPrimaryKey renderReal item, [], []⟩

/-- The answer of the handler, and the conflict it captured. -/
def conflictHandler (policyFor : String → ConflictPolicy) (kind : ConflictType) (item : ChangesetItem) :
    ConflictAction × Option RowConflict :=
  if isBenignDuplicateInsert kind item || isConvergentDelete kind item then (.omit, none)
  else if kind = .foreignKey then (.abort, some (describeConflict renderReal kind item))
  else
    match resolveConflict (policyFor item.table.name) kind item.code with
    | .resolve resolved => (resolved, none)
    | .conflict => (.abort, some (describeConflict renderReal kind item))

/-! ## Applying a changeset -/

/-- Why an apply stopped: the handler aborted it, or it asked to replace what cannot be replaced. -/
inductive Stop where
  | aborted (captured : Option RowConflict)
  | misuse

/-- The rest of a change after the handler's answer to a conflict: keep the row, or force the change. -/
def resolveAs {table : Table} (answer : ConflictAction × Option RowConflict) (kept forced : Option table.Row)
    (replaceable : Bool) : Except Stop (Option table.Row) :=
  match answer.1 with
  | .omit => .ok kept
  | .replace => if replaceable then .ok forced else .error .misuse
  | .abort => .error (.aborted answer.2)

/-- The accessors' view of an update: columns it does not change are NULL. -/
def defined {table : Table} (values : table.Column → Option Value) : table.Row := fun column => (values column).getD .null

/-- Applies a change to the row at its key. -/
def applyChange (policyFor : String → ConflictPolicy) (place : Location) (change : Change place.table)
    (current : Option place.table.Row) : Except Stop (Option place.table.Row) :=
  let handle (kind : ConflictType) (item : ChangesetItem) := conflictHandler renderReal policyFor kind item
  match change with
  | .insert new =>
    match current with
    | none => .ok (some new)
    | some row => resolveAs (handle .conflict ⟨place.table, .insert, none, some new, some row, 0⟩) current (some new) true
  | .delete old =>
    match current with
    | none => resolveAs (handle .notFound ⟨place.table, .delete, some old, none, none, 0⟩) current current false
    | some row =>
      if row = old then .ok none
      else resolveAs (handle .data ⟨place.table, .delete, some old, none, some row, 0⟩) current none true
  | .update old new =>
    match current with
    | none =>
      resolveAs (handle .notFound ⟨place.table, .update, some (defined old), some (defined new), none, 0⟩) current current false
    | some row =>
      let updated := some fun column => (new column).getD (row column)
      if ∀ column, (new column).isSome → old column = some (row column) then .ok updated
      else
        resolveAs (handle .data ⟨place.table, .update, some (defined old), some (defined new), some row, 0⟩) current updated true

/-- `Connection::apply`, which keeps nothing of a changeset it stops in. -/
def apply (policyFor : String → ConflictPolicy) (rows : Rows) (changes : Changeset) : Except Stop Rows :=
  changes.foldlM (updateAt (applyChange renderReal policyFor)) rows

/-! ## The driver -/

/-- A schema object with its definitions in ours and theirs. -/
structure SchemaDivergence where
  object : String
  ours : Option String
  theirs : Option String
deriving DecidableEq

inductive MergeError where
  | sqlite
  | schemaDiverged (objects : List SchemaDivergence)
  | baseSchemaDiverged (objects : List String)
  | missingPrimaryKey (tables : List String)
  | conflicts (captured : List RowConflict)
  | integrityCheckFailed (rows : List String)
  | foreignKeyCheckFailed (rows : List String)
deriving DecidableEq

/-- What is checked around the merge: the gates, which read the schemas of the three files, and the findings
of SQLite in the merged database. -/
structure Checks where
  gates : Except MergeError Unit
  integrityCheck : Rows → List String
  foreignKeyCheck : Rows → List String

/-- `merge`: the rows ours holds in the end, and the result. -/
def merge (checks : Checks) (policyFor : String → ConflictPolicy) (visited : List Location) (base ours theirs : Rows) :
    Rows × Except MergeError Unit :=
  match checks.gates with
  | .error error => (ours, .error error)
  | .ok () =>
    match apply renderReal policyFor ours (changeset visited base theirs) with
    | .error (.aborted (some captured)) => (ours, .error (.conflicts [captured]))
    | .error _ => (ours, .error .sqlite)
    | .ok merged =>
      if checks.integrityCheck merged ≠ ["ok"] then (merged, .error (.integrityCheckFailed (checks.integrityCheck merged)))
      else if checks.foreignKeyCheck merged ≠ [] then
        (merged, .error (.foreignKeyCheckFailed (checks.foreignKeyCheck merged)))
      else (merged, .ok ())

end

end Index.Sqlmerge
