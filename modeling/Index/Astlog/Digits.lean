import Mathlib.Data.String.Basic

/-! # Digit grouping

The canonical underscore grouping of decimal literals, which the `misgrouped-digits` builtin compares
a text with.  Texts are lists of characters here. -/

namespace Index.Astlog

/-- Longest digit run that may stay bare. -/
def maxUngrouped : Nat := 4

def groupSize : Nat := 3

/-- The digits from position `index` of a run of `length`, with their separators. -/
def groupDigitsFrom (length : Nat) (fromLeft : Bool) (index : Nat) : List Char → List Char
  | [] => []
  | digit :: digits =>
    let atBoundary := if fromLeft then index % groupSize = 0 else (length - index) % groupSize = 0
    let rest := digit :: groupDigitsFrom length fromLeft (index + 1) digits
    if 0 < index ∧ atBoundary then '_' :: rest else rest

def groupDigits (digits : List Char) (fromLeft : Bool) : List Char :=
  groupDigitsFrom digits.length fromLeft 0 digits

/-- Digits, with underscores strictly between them. -/
def isRun (run : List Char) : Bool :=
  run.head?.any Char.isDigit && run.getLast?.any Char.isDigit && run.all fun c => c.isDigit || c = '_'

/-- A run is regrouped if it carries separators or is long enough to need them. -/
def canonicalRun (run : List Char) (fromLeft : Bool) : List Char :=
  let digits := run.filter (· ≠ '_')
  if '_' ∈ run ∨ maxUngrouped < digits.length then groupDigits digits fromLeft else digits

/-- A text cut at its exponent marker and its decimal point. -/
structure NumberParts where
  int : List Char
  frac : Option (List Char)
  exponent : Option (List Char)

def numberParts (text : List Char) : NumberParts :=
  let isMarker := fun c : Char => c = 'e' || c = 'E'
  let mantissa := text.takeWhile fun c => !isMarker c
  let exponent := text.dropWhile fun c => !isMarker c
  { int := mantissa.takeWhile (· ≠ '.')
    frac := (mantissa.dropWhile (· ≠ '.')).tail?
    exponent := if exponent.isEmpty then none else some exponent }

/-- The exponent marker with its sign, and the digit run behind them. -/
def exponentRun (exponent : List Char) : List Char × List Char :=
  match exponent with
  | marker :: '+' :: run => ([marker, '+'], run)
  | marker :: '-' :: run => ([marker, '-'], run)
  | marker :: run => ([marker], run)
  | [] => ([], [])

/-- Whether the parts are those of a decimal literal. -/
def NumberParts.isNumber (parts : NumberParts) : Bool :=
  !(parts.int.isEmpty && parts.frac.all List.isEmpty) &&
    (parts.int.isEmpty || isRun parts.int) &&
    (parts.frac.all fun frac => frac.isEmpty || isRun frac) &&
    parts.exponent.all fun exponent => isRun (exponentRun exponent).2

def NumberParts.canonical (parts : NumberParts) : List Char :=
  canonicalRun parts.int false ++
    (match parts.frac with
    | some frac => '.' :: canonicalRun frac true
    | none => []) ++
    match parts.exponent with
    | some exponent => (exponentRun exponent).1 ++ canonicalRun (exponentRun exponent).2 false
    | none => []

/-- The canonical grouping of a decimal literal that is not grouped canonically. -/
def regroupDigits (text : List Char) : Option (List Char) :=
  let parts := numberParts text
  if !parts.isNumber then none
  else if parts.canonical = text then none
  else some parts.canonical

example : regroupDigits "10000".toList = some "10_000".toList := by decide

end Index.Astlog
