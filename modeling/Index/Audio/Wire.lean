import Index.Audio.Node
import Index.Lib.LittleEndian
import Index.Lib.Outcome

/-! # Frames on the wire

A message goes over a connection as one frame: the length of its body in four bytes, then the body, which is a
tag and a payload. -/

namespace Index.Audio

open Index.Lib

abbrev Bytes := List UInt8

/-- `BlobHash([u8; 32])`. -/
structure BlobHash where
  bytes : Bytes
  length : bytes.length = 32
deriving DecidableEq

inductive Message where
  | hello (hello : Hello)
  | scoreUpdate (update : Bytes)
  | blobRequest (hash : BlobHash)
  | blob (hash : BlobHash) (bytes : Bytes)
deriving DecidableEq

inductive WireError where
  | json
  | frameExceedsU32
  | frameExceedsCap (length : Nat)
  | emptyFrame
  | hashNot32Bytes
  | blobShorterThanHash
  | unknownTag (tag : UInt8)
  | lengthOutside (length : Nat)
  | unexpectedEof
deriving DecidableEq

/-- `serde_json` at `Hello`: what is written is read back as it was. -/
structure HelloCodec where
  toVec : Hello → Except WireError Bytes
  fromSlice : Bytes → Except WireError Hello
  lawful : ∀ hello bytes, toVec hello = .ok bytes → fromSlice bytes = .ok hello

def maxFrameBytes : Nat := 32 * 1024 * 1024

def tagHello : UInt8 := 0x01
def tagScoreUpdate : UInt8 := 0x02
def tagBlobRequest : UInt8 := 0x03
def tagBlob : UInt8 := 0x04

def hashOf (bytes : Bytes) : Except WireError BlobHash :=
  if h : bytes.length = 32 then .ok ⟨bytes, h⟩ else .error .hashNot32Bytes

namespace Message

variable (codec : HelloCodec)

/-- The tag and the payload of a message. -/
def tagged : Message → Except WireError (UInt8 × Bytes)
  | .hello greeting => do
    let payload ← codec.toVec greeting
    return (tagHello, payload)
  | .scoreUpdate update => .ok (tagScoreUpdate, update)
  | .blobRequest hash => .ok (tagBlobRequest, hash.bytes)
  | .blob hash bytes => .ok (tagBlob, hash.bytes ++ bytes)

def encode (message : Message) : Except WireError Bytes := do
  let (tag, payload) ← message.tagged codec
  let length := payload.length + 1
  if length < 2 ^ 32 then
    if length ≤ maxFrameBytes then .ok (leBytes 4 length ++ tag :: payload) else .error (.frameExceedsCap length)
  else .error .frameExceedsU32

def decode : Bytes → Except WireError Message
  | [] => .error .emptyFrame
  | tag :: payload =>
    if tag = tagHello then do
      let greeting ← codec.fromSlice payload
      return .hello greeting
    else if tag = tagScoreUpdate then .ok (.scoreUpdate payload)
    else if tag = tagBlobRequest then do
      let hash ← hashOf payload
      return .blobRequest hash
    else if tag = tagBlob then
      if 32 ≤ payload.length then do
        let hash ← hashOf (payload.take 32)
        return .blob hash (payload.drop 32)
      else .error .blobShorterThanHash
    else .error (.unknownTag tag)

variable {codec}

theorem hashOf_bytes (hash : BlobHash) : hashOf hash.bytes = .ok hash := dif_pos hash.length

theorem decode_of_tagged {message : Message} {tag : UInt8} {payload : Bytes}
    (tagged : message.tagged codec = .ok (tag, payload)) : decode codec (tag :: payload) = .ok message := by
  cases message with
  | hello greeting =>
    obtain ⟨bytes, written, result⟩ := bind_eq_ok.mp tagged
    obtain ⟨rfl, rfl⟩ := Prod.mk.inj (Except.ok.inj result)
    simp only [decode, if_true, codec.lawful greeting bytes written]
    rfl
  | scoreUpdate update =>
    obtain ⟨rfl, rfl⟩ := Prod.mk.inj (Except.ok.inj tagged)
    rfl
  | blobRequest hash =>
    obtain ⟨rfl, rfl⟩ := Prod.mk.inj (Except.ok.inj tagged)
    simp only [decode, hashOf_bytes]
    rfl
  | blob hash bytes =>
    obtain ⟨rfl, rfl⟩ := Prod.mk.inj (Except.ok.inj tagged)
    have long : 32 ≤ (hash.bytes ++ bytes).length := by rw [List.length_append, hash.length]; omega
    have head : (hash.bytes ++ bytes).take 32 = hash.bytes := by rw [← hash.length, List.take_left]
    have tail : (hash.bytes ++ bytes).drop 32 = bytes := by rw [← hash.length, List.drop_left]
    simp only [decode, if_pos long, head, tail, hashOf_bytes]
    rfl

/-- A frame is a length that a reader accepts and a body of that length that it decodes to the message. -/
structure IsFrame (codec : HelloCodec) (message : Message) (frame body : Bytes) : Prop where
  eq : frame = leBytes 4 body.length ++ body
  accepted : 1 ≤ body.length ∧ body.length ≤ maxFrameBytes
  decoded : decode codec body = .ok message

theorem isFrame_of_encode {message : Message} {frame : Bytes} (encoded : message.encode codec = .ok frame) :
    ∃ body, IsFrame codec message frame body := by
  obtain ⟨⟨tag, payload⟩, tagged, result⟩ := bind_eq_ok.mp encoded
  dsimp only at result
  split at result
  · split at result
    case isTrue capped =>
      obtain rfl := Except.ok.inj result
      exact ⟨tag :: payload, rfl, ⟨Nat.succ_pos _, capped⟩, decode_of_tagged tagged⟩
    case isFalse => cases result
  · cases result

end Message

end Index.Audio
