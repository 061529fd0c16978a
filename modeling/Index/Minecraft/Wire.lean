import Mathlib

/-! # Reading from a Minecraft peer

A read takes bytes off a stream and allocates buffers of lengths that the peer declares.  Its reading keeps both: what
is unread when it ends, with a value or an error, and the sizes that it has asked for. -/

namespace Index.Minecraft

/-- What a declared length is the length of. -/
inductive Subject where
  | frame
  | string
  | statusJson
deriving DecidableEq

inductive IoError where
  | unexpectedEof
  | varintTooLong
  | negativeLength (subject : Subject)
  | exceedsLimit (subject : Subject) (length limit : Nat)
  | unexpectedPacket (id : Int)
  | notUtf8 (subject : Subject)
deriving DecidableEq

structure Reading (α : Type) where
  outcome : Except IoError α
  unread : List UInt8
  allocated : List Nat

def Read (α : Type) := List UInt8 → Reading α

variable {α β : Type}

instance : Monad Read where
  pure value := fun bytes => ⟨.ok value, bytes, []⟩
  bind read next := fun bytes =>
    match read bytes with
    | ⟨.error e, unread, allocated⟩ => ⟨.error e, unread, allocated⟩
    | ⟨.ok value, unread, allocated⟩ =>
      let second := next value unread
      ⟨second.outcome, second.unread, allocated ++ second.allocated⟩

def Read.fail (error : IoError) : Read α := fun bytes => ⟨.error error, bytes, []⟩

/-- `vec![0; length]`, filled by `read_exact`. -/
def readBuffer (length : Nat) : Read (List UInt8) := fun bytes =>
  if length ≤ bytes.length then ⟨.ok (bytes.take length), bytes.drop length, [length]⟩
  else ⟨.error .unexpectedEof, [], [length]⟩

/-- A read from a slice: what is unread of the stream stays. -/
def Read.within (slice : List UInt8) (read : Read α) : Read α := fun bytes => { read slice with unread := bytes }

def maxVarintLen : Nat := 5

/-- The bytes of a varint that are left to read, with the groups before them in `value`.  The byte itself is read into
an array on the stack. -/
def readGroups (value : UInt32) : Nat → Read Int
  | 0 => .fail .varintTooLong
  | left + 1 => fun
    | [] => ⟨.error .unexpectedEof, [], []⟩
    | byte :: bytes =>
      let value := value ||| (byte &&& 0x7F).toUInt32 <<< (7 * (maxVarintLen - (left + 1))).toUInt32
      if byte &&& 0x80 = 0 then ⟨.ok value.toInt32.toInt, bytes, []⟩ else readGroups value left bytes

def readVarint : Read Int := readGroups 0 maxVarintLen

/-- A declared length, by `usize::try_from`. -/
def readLength (subject : Subject) : Read Nat := do
  let declared ← readVarint
  if declared < 0 then .fail (.negativeLength subject) else pure declared.toNat

/-- A buffer of a declared length that is at most `maxLen`. -/
def readDeclared (subject : Subject) (maxLen : Nat) : Read (List UInt8) := do
  let length ← readLength subject
  if maxLen < length then .fail (.exceedsLimit subject length maxLen) else readBuffer length

def readFrame (maxLen : Nat) : Read (List UInt8) := readDeclared .frame maxLen

def fromUtf8 (subject : Subject) (bytes : List UInt8) : Read String :=
  match String.fromUTF8? ⟨bytes.toArray⟩ with
  | some text => pure text
  | none => .fail (.notUtf8 subject)

def readString (maxLen : Nat) : Read String := readDeclared .string maxLen >>= fromUtf8 .string

def maxStatusFrame : Nat := 2 ^ 20

def readStatusResponse : Read String := do
  let response ← readFrame maxStatusFrame
  .within response do
    let packetId ← readVarint
    if packetId ≠ 0 then .fail (.unexpectedPacket packetId)
    else
      let length ← readLength .statusJson
      fromUtf8 .statusJson (← readBuffer length)

/-! ## What a read takes -/

/-- The read asks for no buffer above `cap` and takes at most `count` bytes off the stream. -/
structure Takes (cap count : Nat) (bytes : List UInt8) (reading : Reading α) : Prop where
  allocated : ∀ size ∈ reading.allocated, size ≤ cap
  unread : reading.unread <:+ bytes
  taken : bytes.length ≤ reading.unread.length + count

variable {cap count more size : Nat} {read : Read α} {next : α → Read β} {bytes : List UInt8}

theorem takes_nothing {outcome : Except IoError α} : Takes cap count bytes ⟨outcome, bytes, []⟩ :=
  ⟨by simp, List.suffix_rfl, Nat.le_add_right _ _⟩

theorem Takes.cons {reading : Reading α} (takes : Takes cap count bytes reading) (byte : UInt8) :
    Takes cap (count + 1) (byte :: bytes) reading := by
  refine ⟨takes.allocated, takes.unread.trans (List.suffix_cons _ _), ?_⟩
  have := takes.taken
  rw [List.length_cons]
  omega

theorem bind_of_ok {first : α} (ok : (read bytes).outcome = .ok first) : (read >>= next) bytes =
    ⟨(next first (read bytes).unread).outcome, (next first (read bytes).unread).unread,
      (read bytes).allocated ++ (next first (read bytes).unread).allocated⟩ := by
  simp only [Bind.bind]
  generalize read bytes = reading at ok ⊢
  obtain ⟨outcome | first, unread, allocated⟩ := reading <;> cases ok
  rfl

theorem bind_of_error {error : IoError} (failed : (read bytes).outcome = .error error) :
    (read >>= next) bytes = ⟨.error error, (read bytes).unread, (read bytes).allocated⟩ := by
  simp only [Bind.bind]
  generalize read bytes = reading at failed ⊢
  obtain ⟨error | value, unread, allocated⟩ := reading <;> cases failed
  rfl

theorem Takes.bind (first : Takes cap count bytes (read bytes))
    (rest : ∀ value, (read bytes).outcome = .ok value → Takes cap more (read bytes).unread (next value (read bytes).unread)) :
    Takes cap (count + more) bytes ((read >>= next) bytes) := by
  cases outcome : (read bytes).outcome with
  | error e =>
    rw [bind_of_error outcome]
    exact ⟨first.allocated, first.unread, first.taken.trans (by simp only; omega)⟩
  | ok value =>
    have second := rest value outcome
    rw [bind_of_ok outcome]
    refine ⟨fun size mem => ?_, second.unread.trans first.unread, ?_⟩
    · exact (List.mem_append.mp mem).elim (first.allocated size) (second.allocated size)
    · have := first.taken
      have := second.taken
      simp only
      omega

theorem takes_readBuffer (le : size ≤ cap) : Takes cap cap bytes (readBuffer size bytes) := by
  unfold readBuffer
  split
  · exact ⟨by simpa using le, List.drop_suffix _ _, by rw [List.length_drop]; omega⟩
  · exact ⟨by simpa using le, List.nil_suffix, by rw [List.length_nil]; omega⟩

theorem takes_readGroups (value : UInt32) (left : Nat) : Takes cap left bytes (readGroups value left bytes) := by
  induction left generalizing value bytes with
  | zero => exact takes_nothing
  | succ left ih =>
    cases bytes with
    | nil => exact takes_nothing
    | cons byte bytes =>
      simp only [readGroups]
      split
      · exact takes_nothing.cons byte
      · exact (ih _).cons byte

theorem takes_readVarint : Takes cap maxVarintLen bytes (readVarint bytes) := takes_readGroups 0 maxVarintLen

theorem takes_readLength (subject : Subject) : Takes cap maxVarintLen bytes (readLength subject bytes) := by
  show Takes cap (maxVarintLen + 0) bytes _
  apply takes_readVarint.bind
  intro declared _
  split <;> exact takes_nothing

theorem takes_readDeclared (subject : Subject) :
    Takes cap (maxVarintLen + cap) bytes (readDeclared subject cap bytes) := by
  apply (takes_readLength subject).bind
  intro length _
  split
  · exact takes_nothing
  · exact takes_readBuffer (by omega)

theorem Takes.within {slice : List UInt8} (takes : Takes cap count slice (read slice)) :
    Takes cap 0 bytes (Read.within slice read bytes) :=
  ⟨takes.allocated, List.suffix_rfl, Nat.le_refl _⟩

theorem takes_fromUtf8 (subject : Subject) (text : List UInt8) : Takes cap 0 bytes (fromUtf8 subject text bytes) := by
  unfold fromUtf8
  cases String.fromUTF8? _ <;> exact takes_nothing

/-! ## The declared length of a status -/

/-- The bytes begin with a varint of this value. -/
def Declares (bytes : List UInt8) (declared : Int) (rest : List UInt8) : Prop :=
  (readVarint bytes).outcome = .ok declared ∧ (readVarint bytes).unread = rest

/-- The stream begins with a whole frame, which is a status response whose JSON is declared longer than any frame. -/
def Overdeclares (stream : List UInt8) : Prop :=
  ∃ response behind body rest, ∃ length : Nat,
    Declares stream response.length (response ++ behind) ∧ response.length ≤ maxStatusFrame ∧
      Declares response 0 body ∧ Declares body length rest ∧ maxStatusFrame < length

theorem readLength_eq_ok {subject : Subject} {rest : List UInt8} :
    (readLength subject bytes).outcome = .ok size ∧ (readLength subject bytes).unread = rest ↔
      Declares bytes size rest := by
  unfold Declares readLength
  cases outcome : (readVarint bytes).outcome with
  | error e => simp [bind_of_error outcome]
  | ok declared =>
    rw [bind_of_ok outcome]
    split
    · simp only [Read.fail, reduceCtorEq, false_and, Except.ok.injEq, false_iff]
      omega
    · simp only [pure, Except.ok.injEq]
      have : declared.toNat = size ↔ declared = size := by omega
      rw [this]

theorem readFrame_eq_ok {response : List UInt8} : (readFrame cap bytes).outcome = .ok response ↔
    response.length ≤ cap ∧ ∃ behind, Declares bytes response.length (response ++ behind) := by
  simp only [← @readLength_eq_ok _ _ .frame, readFrame, readDeclared]
  cases outcome : (readLength .frame bytes).outcome with
  | error e => simp [bind_of_error outcome]
  | ok length =>
    rw [bind_of_ok outcome]
    generalize (readLength .frame bytes).unread = unread
    simp only [Except.ok.injEq]
    constructor
    · intro read
      split at read
      · cases read
      · simp only [readBuffer] at read
        split at read <;> cases read
        rename_i fits
        rw [List.length_take, Nat.min_eq_left fits]
        exact ⟨by omega, unread.drop length, rfl, (List.take_append_drop _ _).symm⟩
    · rintro ⟨le, behind, rfl, rfl⟩
      simp [readBuffer, Nat.not_lt.mpr le]

theorem takes_readStatusResponse (sound : ¬ Overdeclares bytes) :
    Takes maxStatusFrame (maxVarintLen + maxStatusFrame) bytes (readStatusResponse bytes) := by
  show Takes maxStatusFrame (maxVarintLen + maxStatusFrame + 0) bytes _
  apply (takes_readDeclared .frame).bind
  intro response framed
  -- What is read from the slice is bounded as if it were a stream.
  apply Takes.within (takes_readVarint.bind (fun packetId identified => ?_))
  · exact maxVarintLen + (maxStatusFrame + 0)
  split
  · exact takes_nothing
  · rename_i zero
    apply (takes_readLength .statusJson).bind
    intro length declared
    apply Takes.bind (takes_readBuffer ?_) (fun text _ => takes_fromUtf8 .statusJson text)
    by_contra above
    obtain ⟨le, behind, frame⟩ := readFrame_eq_ok.mp framed
    rw [not_not.mp zero] at identified
    exact sound ⟨response, behind, _, _, length, frame, le, ⟨identified, rfl⟩, readLength_eq_ok.mp ⟨declared, rfl⟩,
      Nat.not_le.mp above⟩

theorem mem_allocated_readBuffer (next : List UInt8 → Read β) : size ∈ ((readBuffer size >>= next) bytes).allocated := by
  by_cases fits : size ≤ bytes.length <;> simp [Bind.bind, readBuffer, fits]

theorem Takes.not_overdeclares (takes : Takes maxStatusFrame count bytes (readStatusResponse bytes)) :
    ¬ Overdeclares bytes := by
  rintro ⟨response, behind, body, rest, length, frame, le, ⟨identified, rfl⟩, declared, above⟩
  obtain ⟨declared, -⟩ := readLength_eq_ok.mpr declared
  refine Nat.not_lt.mpr (takes.allocated length ?_) above
  rw [readStatusResponse, bind_of_ok (readFrame_eq_ok.mpr ⟨le, behind, frame⟩)]
  apply List.mem_append_right
  rw [Read.within, bind_of_ok identified]
  apply List.mem_append_right
  rw [if_neg (not_not.mpr rfl), bind_of_ok declared]
  apply List.mem_append_right
  exact mem_allocated_readBuffer _

/-- The buffers stay below the caller's cap, and so does what is taken, if and only if no status declares a longer JSON:
`read_status_response` does not compare that length with anything. -/
theorem allocations_capped_iff (stream : List UInt8) :
    ((∀ maxLen, Takes maxLen (maxVarintLen + maxLen) stream (readFrame maxLen stream) ∧
        Takes maxLen (maxVarintLen + maxLen) stream (readString maxLen stream)) ∧
      Takes maxStatusFrame (maxVarintLen + maxStatusFrame) stream (readStatusResponse stream)) ↔
      ¬ Overdeclares stream := by
  constructor
  · exact fun capped => capped.2.not_overdeclares
  · intro sound
    refine ⟨fun maxLen => ⟨takes_readDeclared .frame, ?_⟩, takes_readStatusResponse sound⟩
    exact (takes_readDeclared .string).bind fun text _ => takes_fromUtf8 .string text

/-- A frame of six bytes asks for a buffer of two gigabytes. -/
theorem status_allocates_declared :
    (readStatusResponse [6, 0, 255, 255, 255, 255, 7]).allocated = [6, 2 ^ 31 - 1] := by decide +kernel

end Index.Minecraft
