import Mathlib.Data.List.Dedup

/-! # Byte digests

Lower-case hexadecimal and the SHA-256 function of FIPS 180-4, both executable, so that a
content-addressed program can be evaluated on a concrete input.  Programs are modelled over an
arbitrary digest; `CollisionFree` is the assumption their results make about it. -/

namespace Index.Lib

/-- A 256-bit digest. -/
abbrev Digest := Vector UInt8 32

/-- `digest` separates the listed byte strings. -/
def CollisionFree (digest : List UInt8 → Digest) (inputs : List (List UInt8)) : Prop :=
  ∀ left ∈ inputs, ∀ right ∈ inputs, digest left = digest right → left = right

theorem collisionFree_iff_nodup {digest : List UInt8 → Digest} {inputs : List (List UInt8)} :
    CollisionFree digest inputs ↔ (inputs.dedup.map digest).Nodup := by
  rw [List.nodup_map_iff_inj_on inputs.nodup_dedup]
  simp only [CollisionFree, List.mem_dedup]

/-- Decided with one evaluation of the digest for each distinct input. -/
instance (digest : List UInt8 → Digest) (inputs : List (List UInt8)) :
    Decidable (CollisionFree digest inputs) :=
  decidable_of_iff _ collisionFree_iff_nodup.symm

theorem CollisionFree.mono {digest : List UInt8 → Digest} {small large : List (List UInt8)}
    (free : CollisionFree digest large) (subset : small ⊆ large) : CollisionFree digest small :=
  fun left leftMem right rightMem same => free left (subset leftMem) right (subset rightMem) same

/-! ## Hexadecimal -/

def hexDigit (nibble : Nat) : Char :=
  if nibble < 10 then Char.ofNat (48 + nibble) else Char.ofNat (87 + nibble)

def hexByte (byte : UInt8) : List Char :=
  [hexDigit (byte.toNat / 16), hexDigit (byte.toNat % 16)]

/-- `hex::encode`. -/
def hexEncode (bytes : List UInt8) : String :=
  String.ofList (bytes.flatMap hexByte)

theorem hexDigit_injective {left right : Nat} (leftBound : left < 16) (rightBound : right < 16)
    (same : hexDigit left = hexDigit right) : left = right := by
  have table : ∀ a < 16, ∀ b < 16, hexDigit a = hexDigit b → a = b := by decide
  exact table left leftBound right rightBound same

theorem hexByte_injective {left right : UInt8} (same : hexByte left = hexByte right) :
    left = right := by
  have leftBound := left.toNat_lt
  have rightBound := right.toNat_lt
  simp only [hexByte, List.cons.injEq, and_true] at same
  have high := hexDigit_injective (by omega) (by omega) same.1
  have low := hexDigit_injective (by omega) (by omega) same.2
  exact UInt8.toNat_inj.mp (by omega)

theorem hexChars_injective {left right : List UInt8}
    (same : left.flatMap hexByte = right.flatMap hexByte) : left = right := by
  induction left generalizing right with
  | nil =>
    cases right with
    | nil => rfl
    | cons byte bytes => simp [hexByte] at same
  | cons leftByte leftBytes ih =>
    cases right with
    | nil => simp [hexByte] at same
    | cons rightByte rightBytes =>
      obtain ⟨heads, tails⟩ := List.append_inj
        (show hexByte leftByte ++ leftBytes.flatMap hexByte = hexByte rightByte ++ rightBytes.flatMap hexByte by
          simpa only [List.flatMap_cons] using same) rfl
      rw [hexByte_injective heads, ih tails]

theorem hexEncode_injective {left right : List UInt8} (same : hexEncode left = hexEncode right) :
    left = right :=
  hexChars_injective (String.ofList_injective same)

/-! ## SHA-256 -/

namespace Sha256

/-- The round constants: the first 32 bits of the fractional parts of the cube roots of the first
64 primes. -/
def roundConstants : List UInt32 :=
  [0x428a2f98, 0x71374491, 0xb5c0fbcf, 0xe9b5dba5, 0x3956c25b, 0x59f111f1, 0x923f82a4, 0xab1c5ed5,
   0xd807aa98, 0x12835b01, 0x243185be, 0x550c7dc3, 0x72be5d74, 0x80deb1fe, 0x9bdc06a7, 0xc19bf174,
   0xe49b69c1, 0xefbe4786, 0x0fc19dc6, 0x240ca1cc, 0x2de92c6f, 0x4a7484aa, 0x5cb0a9dc, 0x76f988da,
   0x983e5152, 0xa831c66d, 0xb00327c8, 0xbf597fc7, 0xc6e00bf3, 0xd5a79147, 0x06ca6351, 0x14292967,
   0x27b70a85, 0x2e1b2138, 0x4d2c6dfc, 0x53380d13, 0x650a7354, 0x766a0abb, 0x81c2c92e, 0x92722c85,
   0xa2bfe8a1, 0xa81a664b, 0xc24b8b70, 0xc76c51a3, 0xd192e819, 0xd6990624, 0xf40e3585, 0x106aa070,
   0x19a4c116, 0x1e376c08, 0x2748774c, 0x34b0bcb5, 0x391c0cb3, 0x4ed8aa4a, 0x5b9cca4f, 0x682e6ff3,
   0x748f82ee, 0x78a5636f, 0x84c87814, 0x8cc70208, 0x90befffa, 0xa4506ceb, 0xbef9a3f7, 0xc67178f2]

structure State where
  a : UInt32
  b : UInt32
  c : UInt32
  d : UInt32
  e : UInt32
  f : UInt32
  g : UInt32
  h : UInt32

def initial : State :=
  ⟨0x6a09e667, 0xbb67ae85, 0x3c6ef372, 0xa54ff53a, 0x510e527f, 0x9b05688c, 0x1f83d9ab, 0x5be0cd19⟩

def rotr (word count : UInt32) : UInt32 :=
  (word >>> count) ||| (word <<< (32 - count))

def round (s : State) (constant word : UInt32) : State :=
  let t₁ := s.h + (rotr s.e 6 ^^^ rotr s.e 11 ^^^ rotr s.e 25) +
    ((s.e &&& s.f) ^^^ (~~~s.e &&& s.g)) + constant + word
  let t₂ := (rotr s.a 2 ^^^ rotr s.a 13 ^^^ rotr s.a 22) +
    ((s.a &&& s.b) ^^^ (s.a &&& s.c) ^^^ (s.b &&& s.c))
  ⟨t₁ + t₂, s.a, s.b, s.c, s.d + t₁, s.e, s.f, s.g⟩

/-- The next schedule word from the sixteen before it, most recent first. -/
def nextWord : List UInt32 → UInt32
  | [_, w₂, _, _, _, _, w₇, _, _, _, _, _, _, _, w₁₅, w₁₆] =>
    (rotr w₂ 17 ^^^ rotr w₂ 19 ^^^ (w₂ >>> 10)) + w₇ +
      (rotr w₁₅ 7 ^^^ rotr w₁₅ 18 ^^^ (w₁₅ >>> 3)) + w₁₆
  | _ => 0

def extend : Nat → List UInt32 → List UInt32
  | 0, words => words
  | count + 1, words => extend count (nextWord (words.take 16) :: words)

def chunks (size : Nat) : Nat → List UInt8 → List (List UInt8)
  | 0, _ => []
  | fuel + 1, bytes =>
    if bytes.isEmpty then [] else bytes.take size :: chunks size fuel (bytes.drop size)

def bigEndianWord (bytes : List UInt8) : UInt32 :=
  bytes.foldl (fun word byte => (word <<< 8) ||| byte.toUInt32) 0

def bigEndianBytes (width value : Nat) : List UInt8 :=
  ((List.range width).map fun index => UInt8.ofNat (value >>> (8 * index))).reverse

def compress (s : State) (block : List UInt8) : State :=
  let words := (extend 48 ((chunks 4 16 block).map bigEndianWord).reverse).reverse
  let r := (roundConstants.zip words).foldl (fun s pair => round s pair.1 pair.2) s
  ⟨s.a + r.a, s.b + r.b, s.c + r.c, s.d + r.d, s.e + r.e, s.f + r.f, s.g + r.g, s.h + r.h⟩

def pad (message : List UInt8) : List UInt8 :=
  message ++ 0x80 :: List.replicate ((119 - message.length % 64) % 64) 0 ++
    bigEndianBytes 8 (8 * message.length)

def digest (message : List UInt8) : Digest :=
  let padded := pad message
  let s := (chunks 64 padded.length padded).foldl compress initial
  let word (w : UInt32) : Vector UInt8 4 := Vector.ofFn fun i => UInt8.ofNat (w.toNat >>> (8 * (3 - i.val)))
  word s.a ++ word s.b ++ word s.c ++ word s.d ++ word s.e ++ word s.f ++ word s.g ++ word s.h

example : hexEncode (digest [97, 98, 99]).toList =
    "ba7816bf8f01cfea414140de5dae2223b00361a396177a9cb410ff61f20015ad" := by
  decide +kernel

end Sha256

end Index.Lib
