import Index.Delta.Value
import Index.Lib.Text

/-! # Formats

A managed file has a format, found from its name or its contents when it is first seen.  The parsers of other crates
are parameters, with the conversions to JSON they are followed by; key-value files are read here. -/

namespace Index.Delta

open Index.Lib

abbrev Bytes := List UInt8

inductive Format where
  | json
  | toml
  | yaml
  | plist
  | keyvalue
  | text
deriving DecidableEq

/-- A file's contents in the representation it is diffed in. -/
inductive Doc where
  | structured (value : Value)
  | text (text : String)
  | binary (bytes : Bytes)

/-- What other crates read and write. -/
structure Crates where
  /-- `serde_json::from_str` -/
  json : String → Option Value
  /-- `toml::from_str`, then `toml_to_json` -/
  toml : String → Option Value
  /-- `serde_norway::from_str`, then `serde_json::to_value` -/
  yaml : String → Option Value
  /-- `plist::Value::from_reader`, then `plist_to_json` -/
  plist : Bytes → Option Value
  /-- The unified diff of `similar` with two lines of context -/
  unifiedDiff : String → String → String

/-- Crates that read nothing. -/
def noCrates : Crates where
  json _ := none
  toml _ := none
  yaml _ := none
  plist _ := none
  unifiedDiff _ _ := ""

/-- `str::from_utf8` -/
def fromUtf8 (bytes : Bytes) : Option String := String.fromUTF8? ⟨bytes.toArray⟩

/-! ## Key-value files -/

/-- The name in a `[section]` header. -/
def headerName (trimmed : String) : Option String :=
  match trimmed.toList with
  | '[' :: rest => if rest.getLast? = some ']' then some (trim (String.ofList rest.dropLast)) else none
  | _ => none

/-- A parsed key-value entry line. -/
structure Entry where
  key : String
  value : String
deriving DecidableEq

/-- Splits an entry line at the first `=`; a line without one is a bare key with an empty value. -/
def splitEntry (trimmed : String) : Entry :=
  let chars := trimmed.toList
  if '=' ∈ chars then
    { key := trimEnd (String.ofList (chars.takeWhile (· ≠ '=')))
      value := trimStart (String.ofList ((chars.dropWhile (· ≠ '=')).drop 1)) }
  else { key := trimmed, value := "" }

/-- Inserts an entry; the values of a repeated key are collected in an array. -/
def insertMulti (map : List (String × Value)) (key value : String) : List (String × Value) :=
  let new := Value.string value
  match IndexMap.get map key with
  | none => IndexMap.insert map key new
  | some (.array items) => IndexMap.insert map key (.array (items ++ [new]))
  | some existing => IndexMap.insert map key (.array [existing, new])

/-- A line that holds neither a header nor an entry. -/
def isPassedOver (trimmed : String) : Bool :=
  trimmed = "" || trimmed.toList.head? = some '#' || trimmed.toList.head? = some ';'

/-- The map read so far and the section that entries go to. -/
structure KeyvalueState where
  root : List (String × Value)
  current : Option String

def readLine (state : KeyvalueState) (line : String) : KeyvalueState :=
  let trimmed := trim line
  if isPassedOver trimmed then state
  else
    match headerName trimmed with
    | some name =>
      let root :=
        match IndexMap.get state.root name with
        | some _ => state.root
        | none => IndexMap.insert state.root name (.object [])
      { root := root, current := some name }
    | none =>
      let entry := splitEntry trimmed
      match state.current with
      | none => { state with root := insertMulti state.root entry.key entry.value }
      | some name =>
        -- A bare key that claimed the name of a section is dropped.
        let map :=
          match IndexMap.get state.root name with
          | some (.object map) => map
          | _ => []
        { state with root := IndexMap.insert state.root name (.object (insertMulti map entry.key entry.value)) }

def parseKeyvalue (text : String) : Value := .object ((lines text).foldl readLine ⟨[], none⟩).root

/-! ## Detection -/

/-- `Path::extension` -/
def extension (path : String) : Option String :=
  match ((path.toList.splitOn '/').filter fun component => component ≠ [] ∧ component ≠ ['.']).getLast? with
  | none => none
  | some name =>
    let after := (name.reverse.takeWhile (· ≠ '.')).reverse
    let before := name.take (name.length - after.length - 1)
    if name = ['.', '.'] ∨ '.' ∉ name ∨ before = [] then none else some (String.ofList after)

def byExtension (path : String) : Option Format :=
  match (extension path).map fun extension => String.ofList (extension.toList.map Char.toLower) with
  | some "json" => some .json
  | some "toml" => some .toml
  | some "yaml" => some .yaml
  | some "yml" => some .yaml
  | some "plist" => some .plist
  | some "ini" => some .keyvalue
  | _ => none

def looksKeyvalue (text : String) : Bool :=
  let counted := ((lines text).map trim).filter fun trimmed => !isPassedOver trimmed
  let isEntry := fun trimmed : String =>
    trimmed.toList.head? = some '[' && trimmed.toList.getLast? = some ']' || '=' ∈ trimmed.toList
  let entries := (counted.filter isEntry).length
  let other := counted.length - entries
  0 < entries && other ≤ entries

def sniff (crates : Crates) (contents : Bytes) : Format :=
  if utf8 "bplist" <+: contents then .plist
  else
    match fromUtf8 contents with
    | none => .text
    | some text =>
      let first := (trimStart text).toList.head?
      if (first = some '\x7b' || first = some '[') && (crates.json text).isSome then .json
      else if "<plist".toList <:+: text.toList then .plist
      -- TOML comes first: what parses as TOML gets the writer that keeps its layout.
      else if '=' ∈ text.toList && (crates.toml text).isSome then .toml
      else if looksKeyvalue text then .keyvalue
      else .text

/-- The format of a file by its extension or else by its contents. -/
def detect (crates : Crates) (path : String) (contents : Bytes) : Format :=
  (byExtension path).getD (sniff crates contents)

/-! ## Loading -/

def textOrBinary (contents : Bytes) : Doc :=
  match fromUtf8 contents with
  | none => .binary contents
  | some text => .text text

/-- Parses contents under a format; what does not parse is taken as text, so that drift stays visible. -/
def load (crates : Crates) (format : Format) (contents : Bytes) : Doc :=
  let structured :=
    match format with
    | .json => (fromUtf8 contents).bind crates.json
    | .toml => (fromUtf8 contents).bind crates.toml
    | .yaml => (fromUtf8 contents).bind crates.yaml
    | .plist => crates.plist contents
    | .keyvalue => (fromUtf8 contents).map parseKeyvalue
    | .text => none
  match structured with
  | some value => .structured value
  | none => textOrBinary contents

end Index.Delta
