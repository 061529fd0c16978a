import Index.Audio.Wire
import Mathlib.Data.Prod.Lex
import Mathlib.Data.List.Sort
import Mathlib.Order.Basic

/-! # The score

The score is a document that all peers edit: which instrument plays from which frame, the values of its controls,
and changes of controls scheduled for frames to come.  What peers write into the document is not trusted: what does
not read as an event or a control is passed over.  Floats are their bits, since nothing here calculates with them. -/

namespace Index.Audio

/-- An `f32` by its bits. -/
abbrev F32 := UInt32

/-- An `f64` by its bits. -/
abbrev F64 := UInt64

/-- A value of the document; the entries of a map come in the order its iterator has them. -/
inductive LoroValue where
  | null
  | bool (value : Bool)
  | double (value : F64)
  | i64 (value : Int64)
  | binary (value : Bytes)
  | string (value : String)
  | list (items : List LoroValue)
  | map (entries : List (String × LoroValue))

structure InstrumentRef where
  hash : BlobHash
  atFrame : Nat
deriving DecidableEq

structure Event where
  atFrame : Nat
  control : Nat
  value : F32
deriving DecidableEq

structure ControlValue where
  control : Nat
  value : F32
deriving DecidableEq

/-- The root containers a renderer reads. -/
structure Score where
  instrumentMap : List (String × LoroValue)
  controlsMap : List (String × LoroValue)
  eventsList : List LoroValue

inductive HexError where
  | oddLength
  | invalidStringLength
  | invalidHexCharacter (character : UInt8) (index : Nat)
deriving DecidableEq

inductive ScoreError where
  | hashNotString
  | hex (error : HexError)
deriving DecidableEq

section Hash

/-- The value of a hexadecimal digit, in either case. -/
def hexDigit (byte : UInt8) : Option UInt8 :=
  if 65 ≤ byte ∧ byte ≤ 70 then some (byte - 65 + 10)
  else if 97 ≤ byte ∧ byte ≤ 102 then some (byte - 97 + 10)
  else if 48 ≤ byte ∧ byte ≤ 57 then some (byte - 48)
  else none

/-- The bytes of pairs of digits; an error names the first byte that is none, and where it stands. -/
def hexBytes (index : Nat) : Bytes → Except HexError Bytes
  | high :: low :: digits =>
    match hexDigit high, hexDigit low with
    | some first, some second => do
      let bytes ← hexBytes (index + 2) digits
      return (first <<< 4 ||| second) :: bytes
    | none, _ => .error (.invalidHexCharacter high index)
    | some _, none => .error (.invalidHexCharacter low (index + 1))
  | _ => .ok []

theorem length_hexBytes {digits bytes : Bytes} {index : Nat} (read : hexBytes index digits = .ok bytes) :
    bytes.length = digits.length / 2 := by
  fun_induction hexBytes index digits generalizing bytes with
  | case1 index high low digits first second _ _ ih =>
    obtain ⟨rest, others, result⟩ := Lib.bind_eq_ok.mp read
    obtain rfl := Except.ok.inj result
    rw [List.length_cons, ih others, List.length_cons, List.length_cons]
    omega
  | case2 => cases read
  | case3 => cases read
  | case4 digits index short =>
    obtain rfl := Except.ok.inj read
    match digits, short with
    | [], _ => simp
    | [_], _ => simp
    | high :: low :: digits, short => exact (short high low digits rfl).elim

/-- `BlobHash::parse_hex`. -/
def parseHex (text : String) : Except HexError BlobHash :=
  let digits := text.toList.flatMap String.utf8EncodeChar
  if digits.length % 2 ≠ 0 then .error .oddLength
  else if h : digits.length / 2 = 32 then
    match read : hexBytes 0 digits with
    | .ok bytes => .ok ⟨bytes, (length_hexBytes read).trans h⟩
    | .error error => .error error
  else .error .invalidStringLength

end Hash

section Order

/-- `EventKey` compares its fields from first to last. -/
def Event.sortKey (event : Event) : Nat ×ₗ Nat ×ₗ Nat :=
  toLex (event.atFrame, toLex (event.control, event.value.toNat))

theorem Event.sortKey_injective : Function.Injective Event.sortKey := by
  intro ⟨atFrame, control, value⟩ ⟨_, _, _⟩ same
  simp only [Event.sortKey, EmbeddingLike.apply_eq_iff_eq, Prod.mk.injEq, UInt32.toNat_inj] at same
  obtain ⟨rfl, rfl, rfl⟩ := same
  rfl

instance : LinearOrder Event := LinearOrder.lift' Event.sortKey Event.sortKey_injective

theorem Event.atFrame_le_of_le {one other : Event} (le : one ≤ other) : one.atFrame ≤ other.atFrame := by
  have key : one.sortKey ≤ other.sortKey := le
  rw [Event.sortKey, Event.sortKey, Prod.Lex.toLex_le_toLex] at key
  omega

end Order

/-- `str::parse::<u16>`: digits, perhaps after a plus sign, of a number that fits. -/
def parseU16 (text : String) : Option Nat :=
  let digits := match text.toList with
    | '+' :: digits => digits
    | digits => digits
  if digits ≠ [] ∧ digits.all Char.isDigit then
    let number := digits.foldl (fun number digit => number * 10 + (digit.toNat - '0'.toNat)) 0
    if number < 2 ^ 16 then some number else none
  else none

namespace LoroValue

def asI64 : LoroValue → Option Int
  | .i64 value => some value.toInt
  | _ => none

theorem lt_of_asI64 {value : LoroValue} {number : Int} (read : value.asI64 = some number) : number < 2 ^ 63 := by
  unfold asI64 at read
  split at read <;> cases read
  exact Int64.toInt_lt _

def asStr : LoroValue → Option String
  | .string value => some value
  | _ => none

end LoroValue

/-- `u64::try_from(..).ok()`. -/
def toU64 (number : Int) : Option Nat := if 0 ≤ number then some number.toNat else none

/-- `u16::try_from(..).ok()`. -/
def toU16 (number : Int) : Option Nat := if 0 ≤ number ∧ number < 2 ^ 16 then some number.toNat else none

namespace Score

-- the cast from `f64` to `f32`
variable (narrow : F64 → F32)

def asF32 : LoroValue → Option F32
  | .double value => some (narrow value)
  | _ => none

def instrument (score : Score) : Except ScoreError (Option InstrumentRef) :=
  match score.instrumentMap.lookup "hash" with
  | none => .ok none
  | some hash =>
    match hash.asStr with
    | none => .error .hashNotString
    | some text =>
      match parseHex text with
      | .error error => .error (.hex error)
      | .ok hash =>
        let atFrame := ((score.instrumentMap.lookup "at_frame").bind LoroValue.asI64).bind toU64
        .ok (some ⟨hash, atFrame.getD 0⟩)

/-- Frames are an `i64` in the document. -/
theorem atFrame_lt_of_instrument {score : Score} {wanted : InstrumentRef} (named : score.instrument = .ok (some wanted)) :
    wanted.atFrame < 2 ^ 63 := by
  unfold instrument at named
  repeat' split at named
  all_goals cases named
  dsimp only
  cases stored : ((score.instrumentMap.lookup "at_frame").bind LoroValue.asI64).bind toU64 with
  | none => decide
  | some frame =>
    obtain ⟨number, read, fits⟩ := Option.bind_eq_some_iff.mp stored
    obtain ⟨value, -, read⟩ := Option.bind_eq_some_iff.mp read
    have small := LoroValue.lt_of_asI64 read
    rw [toU64] at fits
    split at fits <;> cases fits
    dsimp only [Option.getD_some]
    omega

def controls (score : Score) : List ControlValue :=
  let read := score.controlsMap.filterMap fun (key, value) => do
    let control ← parseU16 key
    let value ← asF32 narrow value
    return ⟨control, value⟩
  read.insertionSort fun one other => one.control ≤ other.control

/-- An event of the document, or nothing if it does not read as one. -/
def eventOf : LoroValue → Option Event
  | .map entries => do
    let atFrame ← toU64 (← (← entries.lookup "at").asI64)
    let control ← toU16 (← (← entries.lookup "control").asI64)
    match ← entries.lookup "value" with
    | .double value => return ⟨atFrame, control, narrow value⟩
    | _ => none
  | _ => none

def events (score : Score) : List Event := (score.eventsList.filterMap (eventOf narrow)).insertionSort (· ≤ ·)

variable {narrow}

theorem pairwise_events (score : Score) : (score.events narrow).Pairwise (· ≤ ·) := List.pairwise_insertionSort _ _

/-- The order of the document does not show in the events. -/
theorem events_eq_of_perm {score : Score} {shuffled : List LoroValue} (perm : shuffled.Perm score.eventsList) :
    ({ score with eventsList := shuffled } : Score).events narrow = score.events narrow := by
  have same : (({ score with eventsList := shuffled } : Score).events narrow).Perm (score.events narrow) := by
    apply (List.perm_insertionSort _ _).trans
    exact (perm.filterMap (eventOf narrow)).trans (List.perm_insertionSort _ _).symm
  exact same.eq_of_pairwise' (pairwise_events _) (pairwise_events score)

end Score

end Index.Audio
