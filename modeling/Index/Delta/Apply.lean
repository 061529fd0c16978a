import Index.Delta.Diff

/-! # Applying ops to a value

The structured formats replay ops on the parsed value.  A reference into the value that the source changes in place
is a function here: `navigate` rebuilds the containers around what the edit made of the value they lead to. -/

namespace Index.Delta

open Index.Lib

inductive ApplyError where
  | segmentNotFound (path segment : String)
  | notAnIndex (path segment : String)
  | outOfRange (path : String) (index : Nat)
  | notContainer (path : String)
  | removesRoot
  | keyNotPresent (path key : String)
  | unaddressed
deriving DecidableEq

def ApplyError.message : ApplyError → String
  | segmentNotFound path segment => "path " ++ path ++ ": segment " ++ segment ++ " not found"
  | notAnIndex path segment => "path " ++ path ++ ": " ++ segment ++ " is not an array index"
  | outOfRange path index => "path " ++ path ++ ": index " ++ toString index ++ " out of range"
  | notContainer path => "path " ++ path ++ ": parent is not a container"
  | removesRoot => "cannot remove the document root"
  | keyNotPresent path key => "path " ++ path ++ ": key " ++ key ++ " not present"
  | unaddressed => "unaddressed op cannot be applied; resolve text diffs by hand"

/-- Edits the value that segments lead to. -/
def navigate (full : String) (edit : Value → Except ApplyError Value) : List String → Value → Except ApplyError Value
  | [], current => edit current
  | segment :: segments, .object map =>
    match IndexMap.get map segment with
    | some child => (navigate full edit segments child).map fun child => .object (IndexMap.insert map segment child)
    | none => .error (.segmentNotFound full segment)
  | segment :: segments, .array items =>
    match (parseUsize segment).bind fun index => items[index]?.map (Prod.mk index) with
    | some (index, child) => (navigate full edit segments child).map fun child => .array (items.set index child)
    | none => .error (.segmentNotFound full segment)
  | segment :: _, _ => .error (.segmentNotFound full segment)

/-- Sets one child of a container. -/
def setChild (path last : String) (new : Value) : Value → Except ApplyError Value
  | .object map => .ok (.object (IndexMap.insert map last new))
  | .array items =>
    match parseUsize last with
    | none => .error (.notAnIndex path last)
    | some index =>
      if index = items.length then .ok (.array (items ++ [new]))
      else if index < items.length then .ok (.array (items.set index new))
      else .error (.outOfRange path index)
  | _ => .error (.notContainer path)

/-- Removes one child of a container. -/
def removeChild (path last : String) : Value → Except ApplyError Value
  | .object map =>
    match IndexMap.shiftRemove map last with
    | some map => .ok (.object map)
    | none => .error (.keyNotPresent path last)
  | .array items =>
    match parseUsize last with
    | none => .error (.notAnIndex path last)
    | some index => if items.length ≤ index then .error (.outOfRange path index) else .ok (.array (items.eraseIdx index))
  | _ => .error (.notContainer path)

def setValue (format : Format) (path : String) (new root : Value) : Except ApplyError Value :=
  let segments := parseAddress format path
  match segments.getLast? with
  | none => .ok new
  | some last => navigate path (setChild path last new) segments.dropLast root

def removeValue (format : Format) (path : String) (root : Value) : Except ApplyError Value :=
  let segments := parseAddress format path
  match segments.getLast? with
  | none => .error .removesRoot
  | some last => navigate path (removeChild path last) segments.dropLast root

def applyOp (format : Format) (root : Value) : Op → Except ApplyError Value
  | .add path value => setValue format path value root
  | .replace path _ value => setValue format path value root
  | .remove path _ => removeValue format path root
  | .text _ => .error .unaddressed
  | .binary => .error .unaddressed

def applyStructured (format : Format) (ops : List Op) (root : Value) : Except ApplyError Value := ops.foldlM (applyOp format) root

theorem applyStructured_cons {format : Format} {op : Op} {ops : List Op} {root : Value} :
    applyStructured format (op :: ops) root = (applyOp format root op).bind (applyStructured format ops) :=
  List.foldlM_cons ..

end Index.Delta
