import Index.Langs
import Index.Astlog.Sexpr

/-! # Rule programs

The three top-level forms, `rule`, `rewrite` and `lint`, lowered from s-expressions into a checked
program: names resolve, arities agree, negated variables are mentioned before they are negated, and
the relations can be split into strata. -/

namespace Index.Astlog

open Index.Lib Index.Langs

/-! ## Syntax -/

inductive Term where
  | var (name : String)
  | text (text : String)
deriving DecidableEq

structure AppAtom where
  name : String
  args : List Term
  line : Nat
deriving DecidableEq

structure MatchAtom where
  lang : Lang
  query : String
  line : Nat
deriving DecidableEq

inductive BodyAtom where
  | matching (atom : MatchAtom)
  | app (atom : AppAtom)
  | negation (atom : AppAtom)
deriving DecidableEq

structure Rule where
  name : String
  headVars : List String
  body : List BodyAtom
  line : Nat
deriving DecidableEq

inductive Segment where
  | lit (text : String)
  | var (name : String)
deriving DecidableEq

structure Template where
  segments : List Segment
  line : Nat
deriving DecidableEq

structure Rewrite where
  name : String
  body : List BodyAtom
  target : String
  template : Template
  line : Nat
deriving DecidableEq

inductive Severity where
  | error
  | warning
deriving DecidableEq

structure Lint where
  relation : String
  severity : Severity
  message : Template
  line : Nat
deriving DecidableEq

structure Program where
  rules : List Rule
  rewrites : List Rewrite
  lints : List Lint
deriving DecidableEq

def builtins : List (String × Nat) :=
  [("ancestor", 2), ("parent", 2), ("text", 2), ("kind", 2), ("same-text", 2), ("same-file", 2), ("text-match", 2),
    ("misgrouped-digits", 2), ("no-descendant", 3), ("attached-sibling", 3)]

def builtinArity (name : String) : Option Nat :=
  (builtins.find? fun builtin => builtin.1 = name).map Prod.snd

def Term.vars : Term → List String
  | .var name => [name]
  | .text _ => []

def AppAtom.vars (app : AppAtom) : List String := app.args.flatMap Term.vars

/-! ## Scanning query texts -/

/-- Where the scan of a query stands: outside, in a string literal or in a `;` comment. -/
inductive ScanMode where
  | plain
  | string
  | comment

/-- The suffixes of a query that start outside of strings and comments. -/
def plainSuffixes : ScanMode → List Char → List (List Char)
  | _, [] => []
  | .comment, char :: chars => plainSuffixes (if char = '\n' then .plain else .comment) chars
  | .string, '\x22' :: chars => plainSuffixes .plain chars
  | .string, '\x5c' :: _ :: chars => plainSuffixes .string chars
  | .string, _ :: chars => plainSuffixes .string chars
  | .plain, '\x22' :: chars => plainSuffixes .string chars
  | .plain, ';' :: chars => plainSuffixes .comment chars
  | .plain, char :: chars => (char :: chars) :: plainSuffixes .plain chars

def captureAt (unicode : Unicode) : List Char → Option String
  | '@' :: chars =>
    let name := chars.takeWhile fun c => unicode.isAlphanumeric c || c = '_' || c = '-' || c = '.'
    if name.isEmpty then none else some (String.ofList name)
  | _ => none

/-- The `@capture` names a query mentions. -/
def captureNames (unicode : Unicode) (query : String) : List String :=
  (plainSuffixes .plain query.toList).filterMap (captureAt unicode)

/-- Whether a query uses a `#` predicate. -/
def hasPredicate (query : String) : Bool :=
  (plainSuffixes .plain query.toList).any fun suffix => suffix.head? = some '#'

/-! ## Lowering -/

def expectList (form : Sexpr) (what : String) : Except Error (String × List Sexpr) :=
  match form with
  | .list (.atom text _ :: rest) _ => .ok (text, rest)
  | .list _ line => .error (.dsl line (what ++ " must start with an atom"))
  | other => .error (.dsl other.line (what ++ " must be a list"))

/-- The profile name in any case, or a registered file extension. -/
def resolveLang (unicode : Unicode) (name : String) (line : Nat) : Except Error Lang :=
  let lowered := unicode.toLowercase name
  match Lang.all.find? fun lang => unicode.toLowercase lang.profile.name = lowered with
  | some lang => .ok lang
  | none =>
    match detectFromExtension lowered with
    | some lang => .ok lang
    | none => .error (.unknownLangName name line)

def flushLit (segments : List Segment) (lit : List Char) : List Segment :=
  if lit.isEmpty then segments else segments ++ [.lit (String.ofList lit)]

/-- The template loop; `var` holds the variable being read after an opening brace. -/
def templateSegments (line : Nat) :
    Option (List Char) → List Char → List Char → List Segment → Except Error (List Segment)
  | some _, [], _, _ => .error (.dsl line "unclosed `\x7b` in template")
  | some var, char :: chars, lit, segments =>
    if char = '\x7d' then templateSegments line none chars lit (segments ++ [.var (String.ofList var)])
    else templateSegments line (some (var ++ [char])) chars lit segments
  | none, [], lit, segments => .ok (flushLit segments lit)
  | none, '\x7b' :: '\x7b' :: chars, lit, segments => templateSegments line none chars (lit ++ ['\x7b']) segments
  | none, '\x7d' :: '\x7d' :: chars, lit, segments => templateSegments line none chars (lit ++ ['\x7d']) segments
  | none, '\x7b' :: chars, lit, segments => templateSegments line (some []) chars [] (flushLit segments lit)
  | none, '\x7d' :: _, _, _ => .error (.dsl line "stray `\x7d` in template (escape as `\x7d\x7d`)")
  | none, char :: chars, lit, segments => templateSegments line none chars (lit ++ [char]) segments

def parseTemplate (template : String) (line : Nat) : Except Error Template := do
  let segments ← templateSegments line none template.toList [] []
  return { segments, line }

def parseTerm : Sexpr → Except Error Term
  | .atom text _ => .ok (.var text)
  | .str text _ => .ok (.text text)
  | .list _ line => .error (.dsl line "atom arguments are variables or strings")

/-- An application `(name args...)`, with the name already split off. -/
def parseApp (name : String) (args : List Sexpr) (line : Nat) : Except Error AppAtom := do
  let terms ← tryCollect parseTerm args
  return { name, args := terms, line }

def parseMatch (unicode : Unicode) (args : List Sexpr) (formLine : Nat) : Except Error MatchAtom :=
  match args with
  | [.atom langName langLine, .str query line] => do
    let lang ← resolveLang unicode langName langLine
    return { lang, query, line }
  | _ => .error (.dsl formLine "match form is (match <lang> \"<query>\")")

def parseBodyAtom (unicode : Unicode) : Sexpr → Except Error BodyAtom
  | .list [.atom "not" _, inner] line => do
    match ← parseBodyAtom unicode inner with
    | .app app => return .negation app
    | _ => throw (.dsl line "(not ...) may only negate a relation atom")
  | form => do
    let (name, args) ← expectList form "body atom"
    if name = "match" then return .matching (← parseMatch unicode args form.line)
    else if name = "not" then throw (.dsl form.line "not form is (not (<relation> args...))")
    else return .app (← parseApp name args form.line)

def parseBody (unicode : Unicode) (atoms : List Sexpr) : Except Error (List BodyAtom) :=
  tryCollect (parseBodyAtom unicode) atoms

def parseHeadVar : Sexpr → Except Error String
  | .atom text _ => .ok text
  | other => .error (.dsl other.line "rule head arguments must be variables")

def parseRule (unicode : Unicode) (items : List Sexpr) (line : Nat) : Except Error Rule :=
  match items with
  | [] => .error (.dsl line "(rule ...) needs a head")
  | head :: body => do
    let (name, headArgs) ← expectList head "rule head"
    let headVars ← tryCollect parseHeadVar headArgs
    return { name, headVars, body := ← parseBody unicode body, line }

def parseReplace (unicode : Unicode) (name : String) (body : List Sexpr) (replace : Sexpr) (line : Nat) :
    Except Error Rewrite := do
  match ← expectList replace "replace form" with
  | (replaceHead, [.atom target _, .str template templateLine]) =>
    if replaceHead ≠ "replace" then
      throw (.dsl replace.line ("rewrite must end with (replace ...), got `" ++ replaceHead ++ "`"))
    let atoms ← parseBody unicode body
    return { name, body := atoms, target, template := ← parseTemplate template templateLine, line }
  | _ => throw (.dsl replace.line "replace form is (replace var \"template\")")

def parseRewrite (unicode : Unicode) (items : List Sexpr) (line : Nat) : Except Error Rewrite :=
  match items with
  | .atom name _ :: rest =>
    match rest.getLast? with
    | some replace => parseReplace unicode name rest.dropLast replace line
    | none => .error (.dsl line "(rewrite ...) needs a final (replace var \"template\")")
  | _ => .error (.dsl line "(rewrite ...) needs a name")

def parseSeverity (got : String) (line : Nat) : Except Error Severity :=
  if got = "error" then .ok .error
  else if got = "warning" then .ok .warning
  else .error (.lintSeverity got line)

def parseLint (items : List Sexpr) (line : Nat) : Except Error Lint :=
  match items with
  | [.atom relation _, .atom severity severityLine, .str message messageLine] => do
    let level ← parseSeverity severity severityLine
    return { relation, severity := level, message := ← parseTemplate message messageLine, line }
  | _ => .error (.dsl line "lint form is (lint <relation> <error|warning> \"message\")")

def lowerForm (unicode : Unicode) (program : Program) (form : Sexpr) : Except Error Program := do
  let (head, items) ← expectList form "top-level form"
  if head = "rule" then
    return { program with rules := program.rules ++ [← parseRule unicode items form.line] }
  else if head = "rewrite" then
    return { program with rewrites := program.rewrites ++ [← parseRewrite unicode items form.line] }
  else if head = "lint" then
    return { program with lints := program.lints ++ [← parseLint items form.line] }
  else
    throw (.dsl form.line ("expected (rule ...), (rewrite ...), or (lint ...), got `" ++ head ++ "`"))

/-! ## Strata -/

/-- A reference from the head relation of a rule to a relation of its body. -/
structure Edge where
  head : String
  reference : String
  negative : Bool
deriving DecidableEq

def BodyAtom.edge? (head : String) : BodyAtom → Option Edge
  | .app atom => if (builtinArity atom.name).isNone then some ⟨head, atom.name, false⟩ else none
  | .negation atom => some ⟨head, atom.name, true⟩
  | .matching _ => none

def Program.edges (program : Program) : List Edge :=
  program.rules.flatMap fun rule => rule.body.filterMap (BodyAtom.edge? rule.name)

/-- How far the head must lie above the referenced relation. -/
def Edge.step (edge : Edge) : Nat := if edge.negative then 1 else 0

abbrev Levels := BTreeMap String Nat

/-- One iteration of the inner loop; the relation that last grew is remembered. -/
def relaxEdge (state : Levels × Option String) (edge : Edge) : Except (Fault Error) (Levels × Option String) := do
  let level ← orPanic state.1[edge.reference]?
  let current ← orPanic state.1[edge.head]?
  if current < level + edge.step then return (state.1.insert edge.head (level + edge.step), some edge.head)
  else return state

def relaxPass (edges : List Edge) (level : Levels) : Except (Fault Error) (Levels × Option String) :=
  edges.foldlM relaxEdge (level, none)

def Program.unstratifiable (program : Program) (name : String) : Error :=
  .unstratifiableProgram name (((program.rules.find? fun rule => rule.name = name).map Rule.line).getD 0)

/-- Passes over the edges until nothing grows, with the given number of passes after this one. -/
def Program.relax (program : Program) : Nat → Levels → Except (Fault Error) Levels
  | 0, level => do
    let (next, grew) ← relaxPass program.edges level
    match grew with
    | none => return next
    | some name => throw (.raised (program.unstratifiable name))
  | left + 1, level => do
    let (next, grew) ← relaxPass program.edges level
    match grew with
    | none => return next
    | some _ => program.relax left next

def Program.initialLevels (program : Program) : Levels :=
  program.rules.foldl (fun level rule => level.insert rule.name 0) ∅

def Program.levels (program : Program) : Except (Fault Error) Levels :=
  program.relax (program.initialLevels.size + 1) program.initialLevels

def pushRule (level : Levels) (strata : List (List Nat)) (entry : Rule × Nat) :
    Except (Fault Error) (List (List Nat)) := do
  let stratum ← orPanic level[entry.1.name]?
  if stratum < strata.length then return strata.modify stratum (· ++ [entry.2])
  else throw .panicked

/-- The rule indices by ascending stratum. -/
def Program.strata (program : Program) : Except (Fault Error) (List (List Nat)) := do
  let level ← program.levels
  let maxLevel := level.values.max?.getD 0
  program.rules.zipIdx.foldlM (pushRule level) (List.replicate (maxLevel + 1) [])

/-! ## Checks -/

/-- Arity of each defined relation, taken from its first rule head. -/
def Program.arities (program : Program) (name : String) : Option Nat :=
  (program.rules.find? fun rule => rule.name = name).map fun rule => rule.headVars.length

def checkRelation (arities : String → Option Nat) (app : AppAtom) : Except Error Unit :=
  match arities app.name with
  | none => .error (.unknownRelation app.name app.line)
  | some expected =>
    if app.args.length = expected then .ok ()
    else .error (.arityMismatch app.name expected app.args.length app.line)

def checkBuiltin (app : AppAtom) (expected : Nat) : Except Error Unit :=
  if app.args.length ≠ expected then .error (.builtinArity app.line app.name expected app.args.length)
  else if app.name = "text-match" then
    match app.args[1]? with
    | some (Term.text _) => .ok ()
    | _ => .error (.dsl app.line "text-match pattern must be a string literal")
  else .ok ()

def checkAtom (arities : String → Option Nat) : BodyAtom → Except Error Unit
  | .negation neg =>
    if (builtinArity neg.name).isSome then
      .error (.dsl neg.line ("(not ...) cannot negate the builtin `" ++ neg.name ++ "`"))
    else checkRelation arities neg
  | .app app =>
    match builtinArity app.name with
    | some expected => checkBuiltin app expected
    | none => checkRelation arities app
  | .matching _ => .ok ()

/-- The variables an atom counts as bound once it has run. -/
def BodyAtom.mentions (unicode : Unicode) : BodyAtom → List String
  | .matching atom => captureNames unicode atom.query
  | .app atom => atom.vars
  | .negation _ => []

def checkNegated (bound : List String) : BodyAtom → Except Error Unit
  | .negation neg =>
    match neg.vars.find? fun var => var ∉ bound with
    | some var => .error (.unsafeNegation var neg.line)
    | none => .ok ()
  | _ => .ok ()

/-- The loop over a body, with the variables bound so far. -/
def checkNegationSafety (unicode : Unicode) : List String → List BodyAtom → Except Error Unit
  | _, [] => .ok ()
  | bound, atom :: rest => do
    checkNegated bound atom
    checkNegationSafety unicode (bound ++ atom.mentions unicode) rest

def Segment.var? : Segment → Option String
  | .var name => some name
  | .lit _ => none

def checkTemplate (unicode : Unicode) (rewrite : Rewrite) : Except Error Unit :=
  let mentioned := rewrite.body.flatMap (BodyAtom.mentions unicode)
  let used := rewrite.template.segments.filterMap Segment.var? ++ [rewrite.target]
  match used.find? fun var => var ∉ mentioned with
  | some var => .error (.templateVar var rewrite.template.line)
  | none => .ok ()

def Program.checkRule (program : Program) (unicode : Unicode) (rule : Rule) : Except Error Unit :=
  if (builtinArity rule.name).isSome then
    .error (.dsl rule.line ("rule head `" ++ rule.name ++ "` shadows a builtin"))
  else if program.arities rule.name ≠ some rule.headVars.length then
    .error (.arityMismatch rule.name ((program.arities rule.name).getD rule.headVars.length) rule.headVars.length
      rule.line)
  else do
    tryForEach (checkAtom program.arities) rule.body
    checkNegationSafety unicode [] rule.body

def Program.checkRewrite (program : Program) (unicode : Unicode) (rewrite : Rewrite) : Except Error Unit := do
  tryForEach (checkAtom program.arities) rewrite.body
  checkNegationSafety unicode [] rewrite.body
  checkTemplate unicode rewrite

def Program.checkLint (program : Program) (lint : Lint) : Except Error Unit :=
  match program.rules.find? fun rule => rule.name = lint.relation with
  | none => .error (.unknownRelation lint.relation lint.line)
  | some rule =>
    match (lint.message.segments.filterMap Segment.var?).find? fun var => var ∉ rule.headVars with
    | some var => .error (.lintVar lint.relation var lint.message.line)
    | none => .ok ()

def Program.check (program : Program) (unicode : Unicode) : Except (Fault Error) Unit := do
  fallible (tryForEach (program.checkRule unicode) program.rules)
  fallible (tryForEach (program.checkRewrite unicode) program.rewrites)
  fallible (tryForEach program.checkLint program.lints)
  let _ ← program.strata

/-- Parses and checks a rules file. -/
def Program.parse (unicode : Unicode) (src : String) : Option (Except (Fault Error) Program) := do
  let read ← Sexpr.parse src
  return do
    let forms ← fallible read
    let program ← fallible (forms.foldlM (lowerForm unicode) ⟨[], [], []⟩)
    program.check unicode
    return program

end Index.Astlog
