import Index.Lib.Rust
import Index.Lib.Text

/-! # The s-expression reader

Bare atoms, double-quoted strings and parenthesised lists, with `;` comments to the end of the line.
Every form remembers the line it started on.  Reading a form recurses into the items of a list, so
the reader runs on fuel; twice the length of the text is enough for every text. -/

namespace Index.Astlog

open Index.Lib

/-- The errors of the language, from reading rules to collecting edits.  Those of loading source
files from disk are not modelled. -/
inductive Error where
  | dsl (line : Nat) (message : String)
  | unknownLangName (name : String) (line : Nat)
  | query (line : Nat)
  | predicateUnsupported (line : Nat)
  | regex (line : Nat) (pattern : String)
  | unboundHeadVar (line : Nat) (var : String)
  | unboundBuiltinArg (line : Nat) (name arg : String)
  | builtinArity (line : Nat) (name : String) (expected got : Nat)
  | builtinNotNode (line : Nat) (name arg : String)
  | unknownRelation (name : String) (line : Nat)
  | arityMismatch (name : String) (expected got line : Nat)
  | captureIndex (line index : Nat)
  | replaceNotNode (name var : String)
  | templateVar (var : String) (line : Nat)
  | lintSeverity (got : String) (line : Nat)
  | lintVar (relation var : String) (line : Nat)
  | lintNoNode (rule : String) (line : Nat)
  | overlappingEdits (path : String) (firstStart firstEnd secondStart secondEnd : Nat)
  | unsafeNegation (var : String) (line : Nat)
  | unstratifiableProgram (rule : String) (line : Nat)
  | internal (what : String)
deriving DecidableEq

inductive Sexpr where
  | atom (text : String) (line : Nat)
  | str (text : String) (line : Nat)
  | list (items : List Sexpr) (line : Nat)

def Sexpr.line : Sexpr → Nat
  | .atom _ line | .str _ line | .list _ line => line

/-- The characters still to read and the current line. -/
structure Reader where
  chars : List Char
  line : Nat

namespace Reader

def bump (reader : Reader) : Reader :=
  match reader.chars with
  | [] => reader
  | char :: chars => { chars, line := if char = '\n' then reader.line + 1 else reader.line }

/-- `skipping` tells whether a comment is open, so that the two loops of the source are one. -/
def skipTriviaFrom : Bool → List Char → Nat → Reader
  | _, [], line => ⟨[], line⟩
  | true, char :: chars, line =>
    if char = '\n' then skipTriviaFrom false chars (line + 1) else skipTriviaFrom true chars line
  | false, char :: chars, line =>
    if char = ';' then skipTriviaFrom true chars line
    else if isWhitespace char then skipTriviaFrom false chars (if char = '\n' then line + 1 else line)
    else ⟨char :: chars, line⟩

def skipTrivia (reader : Reader) : Reader := skipTriviaFrom false reader.chars reader.line

/-- The body of a string that started on line `start`, read up to its closing quote. -/
def readStringFrom (start : Nat) : List Char → Nat → List Char → Except Error (Sexpr × Reader)
  | [], _, _ => .error (.dsl start "unterminated string")
  | '\x22' :: chars, line, text => .ok (.str (String.ofList text) start, ⟨chars, line⟩)
  | '\x5c' :: [], line, _ => .error (.dsl line "dangling `\\` at end of input")
  | '\x5c' :: 'n' :: chars, line, text => readStringFrom start chars line (text ++ ['\n'])
  | '\x5c' :: 't' :: chars, line, text => readStringFrom start chars line (text ++ ['\t'])
  | '\x5c' :: '\x22' :: chars, line, text => readStringFrom start chars line (text ++ ['\x22'])
  | '\x5c' :: '\x5c' :: chars, line, text => readStringFrom start chars line (text ++ ['\x5c'])
  | '\x5c' :: other :: _, line, _ =>
    -- The escaped character has been read, so a newline counts.
    .error (.dsl (if other = '\n' then line + 1 else line) ("unknown escape `\\" ++ String.singleton other ++ "`"))
  | char :: chars, line, text =>
    readStringFrom start chars (if char = '\n' then line + 1 else line) (text ++ [char])

/-- The reader stands on the opening quote. -/
def readString (reader : Reader) : Except Error (Sexpr × Reader) :=
  readStringFrom reader.line reader.bump.chars reader.bump.line []

def endsAtom (char : Char) : Bool :=
  isWhitespace char || char = '(' || char = ')' || char = '\x22' || char = ';'

/-- An atom holds no newline, so it stays on its line. -/
def readAtom (reader : Reader) : Sexpr × Reader :=
  (.atom (String.ofList (reader.chars.takeWhile fun char => !endsAtom char)) reader.line,
    ⟨reader.chars.dropWhile fun char => !endsAtom char, reader.line⟩)

mutual

/-- The next form, or nothing at the end of the text; `none` when the fuel is used up. -/
def readForm : Nat → Reader → Option (Except Error (Option Sexpr × Reader))
  | 0, _ => none
  | fuel + 1, start =>
    let reader := start.skipTrivia
    match reader.chars with
    | [] => some (.ok (none, reader))
    | '(' :: _ => readItems fuel reader.line [] reader.bump
    | ')' :: _ => some (.error (.dsl reader.line "unexpected `)`"))
    | '\x22' :: _ => some (reader.readString.map fun read => (some read.1, read.2))
    | _ => some (.ok (some reader.readAtom.1, reader.readAtom.2))

/-- The items of a list opened on `line`, up to its closing parenthesis. -/
def readItems : Nat → Nat → List Sexpr → Reader → Option (Except Error (Option Sexpr × Reader))
  | 0, _, _, _ => none
  | fuel + 1, line, items, start =>
    let reader := start.skipTrivia
    match reader.chars with
    | ')' :: _ => some (.ok (some (.list items line), reader.bump))
    | _ =>
      match readForm fuel reader with
      | none => none
      | some (.error error) => some (.error error)
      | some (.ok (none, _)) => some (.error (.dsl line "unclosed `(`"))
      | some (.ok (some item, rest)) => readItems fuel line (items ++ [item]) rest

end

def readForms : Nat → Reader → List Sexpr → Option (Except Error (List Sexpr))
  | 0, _, _ => none
  | fuel + 1, reader, forms =>
    match readForm fuel reader with
    | none => none
    | some (.error error) => some (.error error)
    | some (.ok (none, _)) => some (.ok forms)
    | some (.ok (some form, rest)) => readForms fuel rest (forms ++ [form])

end Reader

/-- All top-level forms of a rules file. -/
def Sexpr.parse (src : String) : Option (Except Error (List Sexpr)) :=
  Reader.readForms (2 * src.toList.length + 2) ⟨src.toList, 1⟩ []

/-! ## Every text is read to its end or to an error -/

namespace Reader

theorem length_skipTriviaFrom (skipping : Bool) (chars : List Char) (line : Nat) :
    (skipTriviaFrom skipping chars line).chars.length ≤ chars.length := by
  fun_induction skipTriviaFrom skipping chars line <;> simp only [List.length_cons, List.length_nil] <;> omega

theorem length_skipTrivia (reader : Reader) : reader.skipTrivia.chars.length ≤ reader.chars.length :=
  length_skipTriviaFrom false reader.chars reader.line

variable {reader : Reader} {char : Char} {chars : List Char}

theorem length_bump (here : reader.chars = char :: chars) : reader.bump.chars.length < reader.chars.length := by
  simp [bump, here]

variable {line : Nat}

theorem length_readStringFrom {start : Nat} {text : List Char} {read : Sexpr × Reader}
    (returned : readStringFrom start chars line text = .ok read) : read.2.chars.length < chars.length := by
  fun_induction readStringFrom start chars line text with
  | case1 | case3 | case8 => cases returned
  | case2 =>
    cases returned
    simp
  | case4 _ _ _ ih | case5 _ _ _ ih | case6 _ _ _ ih
  | case7 _ _ _ ih =>
    have := ih returned
    simp only [List.length_cons]
    omega
  | case9 =>
    rename_i ih
    have := ih returned
    simp only [List.length_cons]
    omega

theorem length_readAtom (here : reader.chars = char :: chars) (inside : endsAtom char = false) :
    reader.readAtom.2.chars.length < reader.chars.length := by
  have rest := (List.dropWhile_suffix (l := chars) fun char => !endsAtom char).length_le
  simp only [readAtom, here, List.dropWhile_cons, inside, Bool.not_false, if_true, List.length_cons]
  omega

/-- Trivia is over at the end of the text or at a character that opens no trivia. -/
theorem skipTriviaFrom_stops {skipping : Bool} {rest : List Char}
    (here : (skipTriviaFrom skipping chars line).chars = char :: rest) : char ≠ ';' ∧ isWhitespace char = false := by
  fun_induction skipTriviaFrom skipping chars line with
  | case1 => cases here
  | case2 | case3 | case4 | case5 =>
    rename_i ih
    exact ih here
  | case6 chars line char notComment notSpace =>
    cases here
    exact ⟨notComment, Bool.eq_false_iff.mpr notSpace⟩

/-- A read that returned, and consumed something if it found a form. -/
def Progresses (reader : Reader) : Option (Except Error (Option Sexpr × Reader)) → Prop
  | none => False
  | some (.ok (some _, rest)) => rest.chars.length < reader.chars.length
  | some _ => True

theorem Progresses.mono {longer : Reader} {outcome : Option (Except Error (Option Sexpr × Reader))}
    (progress : reader.Progresses outcome) (shorter : reader.chars.length ≤ longer.chars.length) : longer.Progresses outcome := by
  match outcome with
  | none => exact progress
  | some (.ok (some _, rest)) => exact Nat.lt_of_lt_of_le progress shorter
  | some (.ok (none, _)) | some (.error _) => trivial

theorem readForm_progresses (fuel : Nat) :
    (∀ reader : Reader, 2 * reader.chars.length + 1 ≤ fuel → reader.Progresses (readForm fuel reader)) ∧
    ∀ (reader : Reader) line items, 2 * reader.chars.length + 2 ≤ fuel →
      reader.Progresses (readItems fuel line items reader) := by
  induction fuel with
  | zero => exact ⟨fun _ enough => by omega, fun _ _ _ enough => by omega⟩
  | succ fuel ih =>
    obtain ⟨forms, lists⟩ := ih
    constructor
    · intro start enough
      have shorter := start.length_skipTrivia
      rw [readForm]
      generalize trivia : start.skipTrivia = reader at shorter
      refine Progresses.mono ?_ shorter
      cases here : reader.chars with
      | nil => simp [Progresses]
      | cons char chars =>
        have consumed := length_bump here
        have stops := skipTriviaFrom_stops (by rw [← here, ← trivia]; rfl)
        split
        next => trivial
        next => exact (lists reader.bump reader.line [] (by omega)).mono (Nat.le_of_lt consumed)
        next => trivial
        next =>
          cases read : reader.readString with
          | error error => trivial
          | ok form =>
            have := length_readStringFrom read
            change form.2.chars.length < reader.chars.length
            omega
        next noParen noClose noQuote =>
          have letter : endsAtom char = false := by
            simp_all [endsAtom]
          exact length_readAtom here letter
    · intro start line items enough
      have shorter := start.length_skipTrivia
      rw [readItems]
      generalize start.skipTrivia = reader at shorter
      refine Progresses.mono ?_ shorter
      have item := forms reader (by omega)
      split
      next char chars here => exact length_bump here
      next =>
        -- An item was read, and what is left is shorter.
        split
        next unread => simp [unread, Progresses] at item
        next => trivial
        next => trivial
        next form rest read =>
          simp only [read, Progresses] at item
          exact (lists rest line (items ++ [form]) (by omega)).mono (Nat.le_of_lt item)

theorem readForms_returns {fuel : Nat} (enough : 2 * reader.chars.length + 2 ≤ fuel) (forms : List Sexpr) :
    readForms fuel reader forms ≠ none := by
  induction fuel generalizing reader forms with
  | zero => omega
  | succ fuel ih =>
    have form := (readForm_progresses fuel).1 reader (by omega)
    rw [readForms]
    split
    next unread => simp [unread, Progresses] at form
    next => simp
    next => simp
    next form' rest read =>
      simp only [read, Progresses] at form
      exact ih (by omega) _

end Reader

/-- The reader always has enough fuel: every text is parsed or rejected. -/
theorem Sexpr.parse_returns (src : String) : ∃ outcome, Sexpr.parse src = some outcome :=
  Option.ne_none_iff_exists'.mp (Reader.readForms_returns (Nat.le_refl _) [])

end Index.Astlog
