import Index.Delta.Format
import Index.Lib.Decimal
import Index.Lib.Pointer
import Index.Lib.Rust

/-! # The logical differ

One algorithm over values serves every structured format; the formats differ in how they write addresses.  Texts
fall back to one unaddressed op. -/

namespace Index.Delta

open Index.Lib

/-- One logical edit. -/
inductive Op where
  | add (path : String) (value : Value)
  | remove (path : String) (fromValue : Value)
  | replace (path : String) (fromValue toValue : Value)
  | text (diff : String)
  | binary

/-- The address an op touches, when it has one. -/
def Op.address : Op → Option String
  | add path _ => some path
  | remove path _ => some path
  | replace path _ _ => some path
  | text _ => none
  | binary => none

/-! ## Addresses -/

inductive Addressing where
  | pointer
  | dotted
deriving DecidableEq

def addressing : Format → Addressing
  | .toml => .dotted
  | .keyvalue => .dotted
  | .json => .pointer
  | .yaml => .pointer
  | .plist => .pointer
  | .text => .pointer

def separator (format : Format) : Char :=
  match addressing format with
  | .pointer => '/'
  | .dotted => '.'

def render (addressing : Addressing) (segments : List String) : String :=
  match addressing with
  | .pointer => String.ofList (Pointer.render segments)
  | .dotted => String.ofList (['.'].intercalate (segments.map String.toList))

/-- Reads a rendered address back into segments. -/
def parseAddress (format : Format) (path : String) : List String :=
  match addressing format with
  | .pointer => Pointer.parse path.toList
  | .dotted => (path.toList.splitOn '.').map String.ofList

/-! ## Differences of values -/

/-- One op for each pair of a segment and a value, addressed one level below a path. -/
def leafOps (addressing : Addressing) (path : List String) (items : List (String × Value)) (make : String → Value → Op) :
    List Op :=
  items.map fun item => make (render addressing (path ++ [item.1])) item.2

/-- The items from a position on, each with its rendered index. -/
def indexed (items : List Value) (start : Nat) : List (String × Value) :=
  (items.zipIdx.drop start).map fun item => (toString item.2, item.1)

/-- Arrays are compared by position: a longer or shorter array with the same beginning has ops at its end, arrays of
the same length have the ops of their items, and any other array is replaced. -/
def diffArrays (addressing : Addressing) (path : List String) (olds news : List Value) (itemOps : List Op) : List Op :=
  let shared := min olds.length news.length
  let prefixEqual := Value.itemsEq (olds.take shared) (news.take shared)
  if olds.length = news.length then itemOps
  else if prefixEqual && olds.length < news.length then leafOps addressing path (indexed news olds.length) .add
  -- Descending, so that the ops stay valid when they are applied in order.
  else if prefixEqual then leafOps addressing path (indexed olds news.length).reverse .remove
  else [.replace (render addressing path) (.array olds) (.array news)]

mutual

def diffValues (addressing : Addressing) (path : List String) (old new : Value) : List Op :=
  if old.eq new then []
  else
    match old, new with
    | .object olds, .object news =>
      let added := news.filter fun item => (IndexMap.get olds item.1).isNone
      diffEntries addressing path news olds ++ leafOps addressing path added .add
    | .array olds, .array news => diffArrays addressing path olds news (diffItems addressing path 0 olds news)
    | old, new => [.replace (render addressing path) old new]

/-- The entries of an old object against a new one. -/
def diffEntries (addressing : Addressing) (path : List String) (news : List (String × Value)) :
    List (String × Value) → List Op
  | [] => []
  | (key, old) :: olds =>
    (match IndexMap.get news key with
    | some new => diffValues addressing (path ++ [key]) old new
    | none => [.remove (render addressing (path ++ [key])) old]) ++ diffEntries addressing path news olds

/-- The items of two arrays from a position on. -/
def diffItems (addressing : Addressing) (path : List String) (index : Nat) : List Value → List Value → List Op
  | old :: olds, new :: news =>
    diffValues addressing (path ++ [toString index]) old new ++ diffItems addressing path (index + 1) olds news
  | _, _ => []

end

/-! ## Differences of files -/

def textOps (crates : Crates) (old new : String) : List Op :=
  if old = new then [] else [.text (crates.unifiedDiff old new)]

def fallbackOps (crates : Crates) (old new : Bytes) : List Op :=
  match fromUtf8 old, fromUtf8 new with
  | some old, some new => textOps crates old new
  | _, _ => [.binary]

/-- The ops between two snapshots of a file; none if they are logically equal. -/
def diffBytes (crates : Crates) (format : Format) (old new : Bytes) : List Op :=
  if old = new then []
  else
    match load crates format old, load crates format new with
    | .structured oldValue, .structured newValue => diffValues (addressing format) [] oldValue newValue
    | .text oldText, .text newText => textOps crates oldText newText
    | .binary oldBytes, .binary newBytes => if oldBytes = newBytes then [] else fallbackOps crates old new
    | _, _ => fallbackOps crates old new

def logicallyEqual (crates : Crates) (format : Format) (old new : Bytes) : Bool := (diffBytes crates format old new).isEmpty

@[simp] theorem logicallyEqual_self {crates : Crates} {format : Format} {bytes : Bytes} :
    logicallyEqual crates format bytes bytes = true := by
  simp [logicallyEqual, diffBytes]

/-! ## Conflicts -/

/-- The addresses of one side's ops that are, contain or lie in an address of the other side. -/
def overlap (format : Format) (yours incoming : List Op) : List String :=
  let unaddressed := fun ops : List Op => ops.any fun op => op.address.isNone
  if !yours.isEmpty && !incoming.isEmpty && (unaddressed yours || unaddressed incoming) then ["(entire file)"]
  else
    let hits := (yours.filterMap Op.address).filter fun path =>
      (incoming.filterMap Op.address).any fun other => related (separator format) path.toList other.toList
    dedupAdjacent hits

end Index.Delta
