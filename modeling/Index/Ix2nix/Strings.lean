import Mathlib.Data.List.Basic

/-! # Strings of rendered Nix

Literals are escaped one at a time, and a dollar only before a brace of the same literal.  Reading the string back with
Nix's rules finds the parts again unless a dollar meets a brace across the border of two parts. -/

namespace Index.Ix2nix

open List

/-- What is rendered: characters, and the code of an expression as one symbol. -/
inductive Symbol (ε : Type) where
  | char (char : Char)
  | code (expr : ε)

inductive StrPart (ε : Type) where
  | lit (text : List Char)
  | interp (expr : ε)

variable {ε : Type}

def escapeChar (char : Char) (next : Option Char) : List Char :=
  if char = '"' then ['\\', '"']
  else if char = '\\' then ['\\', '\\']
  else if char = '\n' then ['\\', 'n']
  else if char = '\r' then ['\\', 'r']
  else if char = '\t' then ['\\', 't']
  else if char = '$' ∧ next = some '{' then ['\\', '$']
  else [char]

def escapeInto : List Char → List (Symbol ε)
  | [] => []
  | char :: rest => (escapeChar char rest.head?).map .char ++ escapeInto rest

def StrPart.render : StrPart ε → List (Symbol ε)
  | .lit text => escapeInto text
  | .interp expr => [.char '$', .char '{', .code expr, .char '}']

def string (parts : List (StrPart ε)) : List (Symbol ε) := .char '"' :: (parts.flatMap StrPart.render ++ [.char '"'])

/-- The parts of a template literal, from its cooked texts and its converted expressions. -/
def template : List (Option (List Char)) → List ε → Except String (List (StrPart ε))
  | [], _ => .ok []
  | none :: _, _ => .error "template literal has an invalid escape"
  | some cooked :: quasis, expressions => do
    let rest ← template quasis expressions.tail
    return (if cooked.isEmpty then [] else [.lit cooked]) ++ expressions.head?.toList.map .interp ++ rest

def keywords : List String := ["assert", "else", "if", "in", "inherit", "let", "or", "rec", "then", "with"]

def isBareIdent : List Char → Bool
  | [] => false
  | first :: rest => (first.isAlpha || first = '_') && rest.all (fun char => char.isAlphanum || ['_', '\'', '-'].contains char) &&
      !keywords.contains (String.ofList (first :: rest))

/-- The name of an attribute. -/
def attr (name : List Char) : List (Symbol ε) :=
  if isBareIdent name then name.map .char else .char '"' :: (escapeInto name ++ [.char '"'])

/-! ## Reading a string -/

/-- What a string holds: characters, interpolated expressions, and code that stands in it as text. -/
inductive Piece (ε : Type) where
  | char (char : Char)
  | interp (expr : ε)
  | text (expr : ε)

def unescape (char : Char) : Char :=
  if char = 'n' then '\n' else if char = 'r' then '\r' else if char = 't' then '\t' else char

/-- Where the lexer is in a string: in its text, after a dollar, after a backslash, or in an interpolation. -/
inductive Mode (ε : Type) where
  | text
  | dollar
  | escaped
  | opened
  | closing (expr : ε)

/-- Nix's rules inside a string. -/
def readPieces : Mode ε → List (Symbol ε) → Option (List (Piece ε))
  | .text, .char char :: rest =>
    if char = '"' then if rest.isEmpty then some [] else none
    else if char = '\\' then readPieces .escaped rest
    else if char = '$' then readPieces .dollar rest
    else (readPieces .text rest).map (.char char :: ·)
  | .text, .code expr :: rest => (readPieces .text rest).map (.text expr :: ·)
  | .dollar, .char char :: rest =>
    if char = '{' then readPieces .opened rest
    else if char = '"' then if rest.isEmpty then some [.char '$'] else none
    else if char = '\\' then (readPieces .escaped rest).map (.char '$' :: ·)
    else (readPieces .text rest).map ([.char '$', .char char] ++ ·)
  | .dollar, .code expr :: rest => (readPieces .text rest).map ([.char '$', .text expr] ++ ·)
  | .escaped, .char char :: rest => (readPieces .text rest).map (.char (unescape char) :: ·)
  | .opened, .code expr :: rest => readPieces (.closing expr) rest
  | .closing expr, .char char :: rest => if char = '}' then (readPieces .text rest).map (.interp expr :: ·) else none
  | _, _ => none

def readString : List (Symbol ε) → Option (List (Piece ε))
  | .char char :: rest => if char = '"' then readPieces .text rest else none
  | _ => none

def StrPart.pieces : StrPart ε → List (Piece ε)
  | .lit text => text.map .char
  | .interp expr => [.interp expr]

/-! ## Dollars at the borders -/

/-- Whether a text ends in a dollar that is not read as a pair with what stands before it. -/
def pending (dollar : Bool) : List Char → Bool
  | [] => dollar
  | char :: rest => pending (!dollar && char = '$' && rest.head? ≠ some '{') rest

/-- No pending dollar meets an interpolation or a literal that begins with a brace. -/
def bordersClear (dollar : Bool) : List (StrPart ε) → Bool
  | [] => true
  | .lit text :: parts => !(dollar && text.head? = some '{') && bordersClear (pending dollar text) parts
  | .interp _ :: parts => !dollar && bordersClear false parts

def held (dollar : Bool) : List Char := if dollar then ['$'] else []

def mode (dollar : Bool) : Mode ε := if dollar then .dollar else .text

theorem escapeChar_cases (char : Char) (next : Option Char) :
    (∃ escaped, escapeChar char next = ['\\', escaped] ∧ unescape escaped = char) ∨
      escapeChar char next = [char] ∧ char ≠ '"' ∧ char ≠ '\\' ∧ (char = '$' → next ≠ some '{') := by
  unfold escapeChar
  split_ifs with quote backslash newline return_ tab live
  · exact .inl ⟨_, rfl, by rw [quote]; rfl⟩
  · exact .inl ⟨_, rfl, by rw [backslash]; rfl⟩
  · exact .inl ⟨_, rfl, by rw [newline]; rfl⟩
  · exact .inl ⟨_, rfl, by rw [return_]; rfl⟩
  · exact .inl ⟨_, rfl, by rw [tab]; rfl⟩
  · exact .inl ⟨_, rfl, by rw [live.1]; rfl⟩
  · exact .inr ⟨rfl, quote, backslash, fun same next => live ⟨same, next⟩⟩

/-- A character that leaves no dollar pending is read back, with the dollar before it. -/
theorem readPieces_escapeChar {char : Char} {next : Option Char} {dollar : Bool} (brace : dollar = true → char ≠ '{')
    (settled : (!dollar && decide (char = '$') && decide (next ≠ some '{')) = false) (rest : List (Symbol ε)) :
    readPieces (mode dollar) ((escapeChar char next).map .char ++ rest) =
      (readPieces .text rest).map ((held dollar ++ [char]).map .char ++ ·) := by
  rcases escapeChar_cases char next with ⟨escaped, written, rfl⟩ | ⟨written, quote, backslash, dead⟩
  · cases dollar <;> simp [mode, held, written, readPieces, Function.comp_def]
  · cases dollar with
    | false =>
      have plain : char ≠ '$' := fun same => dead same (by simpa [same] using settled)
      simp [mode, held, written, readPieces, quote, backslash, plain]
    | true => simp [mode, held, written, readPieces, quote, backslash, brace rfl]

/-- A literal is read back, the dollar it leaves pending with what follows. -/
theorem readPieces_escapeInto (text : List Char) (dollar : Bool) (clear : dollar = true → text.head? ≠ some '{')
    (rest : List (Symbol ε)) (pieces : List (Piece ε)) :
    readPieces (mode dollar) (escapeInto text ++ rest) = some ((held dollar ++ text).map .char ++ pieces) ↔
      readPieces (mode (pending dollar text)) rest = some ((held (pending dollar text)).map .char ++ pieces) := by
  induction text generalizing dollar with
  | nil => simp [pending, escapeInto]
  | cons char text ih =>
    rw [pending]
    cases settled : !dollar && decide (char = '$') && decide (text.head? ≠ some '{') with
    | false =>
      have brace (pending : dollar = true) : char ≠ '{' := by simpa using clear pending
      rw [escapeInto, append_assoc, readPieces_escapeChar brace settled, ← ih false (by simp)]
      simp [mode, held]
    | true =>
      simp only [Bool.and_eq_true, Bool.not_eq_true', decide_eq_true_eq] at settled
      obtain ⟨⟨rfl, rfl⟩, dead⟩ := settled
      rw [← ih true fun _ => dead]
      simp [escapeInto, escapeChar, dead, mode, held, readPieces]

/-- No interpolation is read where characters follow. -/
theorem readPieces_opened (text : List Char) {rest : List (Symbol ε)} (stops : readPieces .opened rest = none) :
    readPieces .opened (escapeInto text ++ rest) = none := by
  cases text with
  | nil => exact stops
  | cons char text =>
    rcases escapeChar_cases char text.head? with ⟨escaped, written, -⟩ | ⟨written, -⟩ <;> simp [escapeInto, written, readPieces]

theorem readPieces_opened_parts (parts : List (StrPart ε)) :
    readPieces .opened (parts.flatMap StrPart.render ++ [.char '"']) = none := by
  induction parts with
  | nil => rfl
  | cons part parts ih =>
    rw [flatMap_cons, append_assoc]
    cases part with
    | lit text => exact readPieces_opened text ih
    | interp expr => rfl

theorem readPieces_parts (parts : List (StrPart ε)) (dollar : Bool) :
    readPieces (mode dollar) (parts.flatMap StrPart.render ++ [.char '"']) =
      some ((held dollar).map .char ++ parts.flatMap StrPart.pieces) ↔ bordersClear dollar parts = true := by
  induction parts generalizing dollar with
  | nil => cases dollar <;> simp [held, mode, readPieces, bordersClear]
  | cons part parts ih =>
    rw [flatMap_cons, flatMap_cons, append_assoc]
    cases part with
    | lit text =>
      rw [bordersClear, StrPart.render, StrPart.pieces]
      by_cases live : dollar = true ∧ text.head? = some '{'
      · obtain ⟨rfl, brace⟩ := live
        cases text with
        | nil => cases brace
        | cons char text =>
          obtain rfl : char = '{' := by simpa using brace
          simp [mode, escapeInto, escapeChar, readPieces, readPieces_opened text (readPieces_opened_parts parts)]
      · rw [← append_assoc (map ..), ← map_append, readPieces_escapeInto text dollar fun pending brace => live ⟨pending, brace⟩, ih]
        simp [← Bool.not_eq_true, ← not_and_or, live]
    | interp expr =>
      rw [bordersClear]
      cases dollar with
      | false => simpa [mode, held, StrPart.render, StrPart.pieces, readPieces] using ih false
      | true => simp [mode, held, StrPart.render, StrPart.pieces, readPieces]

/-- A string reads back as its parts unless a dollar meets a brace across a border, and a quoted name always does. -/
theorem string_reads_back_iff :
    (∀ parts : List (StrPart ε), readString (string parts) = some (parts.flatMap StrPart.pieces) ↔ bordersClear false parts = true) ∧
      ∀ name, isBareIdent name = false → readString (attr name : List (Symbol ε)) = some (name.map .char) := by
  have reads (parts : List (StrPart ε)) :
      readString (string parts) = some (parts.flatMap StrPart.pieces) ↔ bordersClear false parts = true := readPieces_parts parts false
  refine ⟨reads, fun name quoted => ?_⟩
  have back := (reads [.lit name]).mpr (by simp [bordersClear])
  simpa [attr, quoted, string, StrPart.render, StrPart.pieces] using back

theorem paired_dollars_read_back :
    readString (string [.lit ['$', '$'], .interp ()]) = some [.char '$', .char '$', .interp ()] :=
  (string_reads_back_iff.1 [.lit ['$', '$'], .interp ()]).mpr (by decide)

/-- A template that puts a dollar before an expression is read as text. -/
theorem dollar_takes_interpolation :
    template [some ['$'], some []] [()] = .ok [.lit ['$'], .interp ()] ∧
      readString (string [.lit ['$'], .interp ()]) = some [.char '$', .char '$', .char '{', .text (), .char '}'] ∧
      readString (string [.lit ['$'], .interp ()]) ≠ some [.char '$', .interp ()] := by
  refine ⟨rfl, rfl, fun same => ?_⟩
  injection same with same
  cases same

end Index.Ix2nix
