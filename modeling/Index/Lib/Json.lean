import Index.Lib.Digest

/-! # Compact JSON text

The fragment of JSON made of strings and objects, written the way `serde_json` writes it: no
blanks, the two-character escapes where they exist, `\u00xx` for the other control characters and
every other character verbatim.  The text determines the value, also as the start of a longer text,
which is what a document hashed for its identity relies on. -/

namespace Index.Lib

open List

/-! ## Encodings that can be cut off a longer word -/

/-- An encoding is unambiguous when an encoded value can be split off the front of a word in one
way only. -/
def Unambiguous {α γ : Type*} (encode : α → List γ) : Prop :=
  ∀ left right leftRest rightRest,
    encode left ++ leftRest = encode right ++ rightRest → left = right ∧ leftRest = rightRest

theorem unambiguous_of_prefix {α γ : Type*} {encode : α → List γ}
    (code : ∀ left right, encode left <+: encode right → left = right) : Unambiguous encode := by
  intro left right leftRest rightRest same
  have equal : left = right := by
    rcases prefix_or_prefix_of_prefix (prefix_append (encode left) leftRest)
      (same ▸ prefix_append (encode right) rightRest) with inLeft | inRight
    · exact code left right inLeft
    · exact (code right left inRight).symm
  subst equal
  exact ⟨rfl, append_cancel_left same⟩

/-- A list of unambiguous codes stays unambiguous once a letter that starts no code ends it. -/
theorem flatMap_terminated {α γ : Type*} {encode : α → List γ} (code : Unambiguous encode)
    (stop : γ) (fresh : ∀ value, ∃ letter rest, encode value = letter :: rest ∧ letter ≠ stop) :
    Unambiguous (fun values : List α => values.flatMap encode ++ [stop]) := by
  intro left
  induction left with
  | nil =>
    intro right leftRest rightRest same
    cases right with
    | nil => exact ⟨rfl, by simpa using same⟩
    | cons value values =>
      obtain ⟨letter, rest, encoded, differs⟩ := fresh value
      simp only [flatMap_nil, flatMap_cons, encoded, nil_append, cons_append,
        List.cons.injEq] at same
      exact absurd same.1.symm differs
  | cons leftValue leftValues ih =>
    intro right leftRest rightRest same
    cases right with
    | nil =>
      obtain ⟨letter, rest, encoded, differs⟩ := fresh leftValue
      simp only [flatMap_nil, flatMap_cons, encoded, nil_append, cons_append,
        List.cons.injEq] at same
      exact absurd same.1 differs
    | cons rightValue rightValues =>
      simp only [flatMap_cons, append_assoc] at same
      obtain ⟨heads, tails⟩ := code _ _ _ _ same
      obtain ⟨values, rests⟩ := ih rightValues leftRest rightRest
        (by simpa only [append_assoc] using tails)
      exact ⟨by rw [heads, values], rests⟩

/-! ## Strings -/

def quotation : Char := Char.ofNat 34
def backslash : Char := Char.ofNat 92

/-- The letter of a two-character escape. -/
def shortEscape : Nat → Option Char
  | 34 => some quotation
  | 92 => some backslash
  | 8 => some 'b'
  | 9 => some 't'
  | 10 => some 'n'
  | 12 => some 'f'
  | 13 => some 'r'
  | _ => none

def escapeCode (code : Nat) : List Char :=
  match shortEscape code with
  | some letter => [backslash, letter]
  | none =>
    if code < 32 then [backslash, 'u', '0', '0', hexDigit (code / 16), hexDigit (code % 16)]
    else [Char.ofNat code]

def escapeChar (c : Char) : List Char := escapeCode c.toNat

/-- The code points that are not written verbatim. -/
def escapedCodes : List Nat := 34 :: 92 :: List.range 32

theorem escapeCode_escaped : ∀ code ∈ escapedCodes, ∃ rest, escapeCode code = backslash :: rest := by
  simp only [escapedCodes, forall_mem_cons]
  refine ⟨⟨_, rfl⟩, ⟨_, rfl⟩, ?_⟩
  intro code bound
  unfold escapeCode
  split
  · exact ⟨_, rfl⟩
  · rw [if_pos (mem_range.mp bound)]
    exact ⟨_, rfl⟩

theorem escapeChar_verbatim {c : Char} (plain : c.toNat ∉ escapedCodes) : escapeChar c = [c] := by
  simp only [escapedCodes, mem_cons, mem_range, not_or] at plain
  obtain ⟨notQuotation, notBackslash, notControl⟩ := plain
  have noShort : shortEscape c.toNat = none := by
    unfold shortEscape
    split <;> first | omega | rfl
  simp only [escapeChar, escapeCode, noShort, if_neg notControl, Char.ofNat_toNat]

theorem escapeChar_head (c : Char) : ∃ letter rest, escapeChar c = letter :: rest ∧ letter ≠ quotation := by
  by_cases escaped : c.toNat ∈ escapedCodes
  · obtain ⟨rest, encoded⟩ := escapeCode_escaped _ escaped
    exact ⟨_, rest, encoded, by decide⟩
  · refine ⟨c, [], escapeChar_verbatim escaped, ?_⟩
    rintro rfl
    exact escaped (by decide)

theorem escapeChar_prefix (left right : Char) (extends_ : escapeChar left <+: escapeChar right) :
    left = right := by
  have table : ∀ a ∈ escapedCodes, ∀ b ∈ escapedCodes, escapeCode a <+: escapeCode b → a = b := by
    decide +kernel
  -- A verbatim character is one letter and never the backslash that starts every escape.
  have verbatim : ∀ c : Char, c.toNat ∉ escapedCodes → c ≠ backslash := by
    rintro c plain rfl
    exact plain (by decide)
  by_cases leftEscaped : left.toNat ∈ escapedCodes <;> by_cases rightEscaped : right.toNat ∈ escapedCodes
  · exact Char.toNat_inj.mp (table _ leftEscaped _ rightEscaped extends_)
  · obtain ⟨rest, encoded⟩ := escapeCode_escaped _ leftEscaped
    rw [escapeChar_verbatim rightEscaped, escapeChar, encoded, cons_prefix_cons] at extends_
    exact absurd extends_.1.symm (verbatim right rightEscaped)
  · obtain ⟨rest, encoded⟩ := escapeCode_escaped _ rightEscaped
    rw [escapeChar_verbatim leftEscaped, escapeChar, encoded, cons_prefix_cons] at extends_
    exact absurd extends_.1 (verbatim left leftEscaped)
  · rw [escapeChar_verbatim leftEscaped, escapeChar_verbatim rightEscaped, cons_prefix_cons] at extends_
    exact extends_.1

theorem escapeChar_unambiguous : Unambiguous escapeChar :=
  unambiguous_of_prefix escapeChar_prefix

/-- A JSON string literal. -/
def quote (text : String) : List Char :=
  quotation :: (text.toList.flatMap escapeChar ++ [quotation])

theorem quote_unambiguous : Unambiguous quote := by
  intro left right leftRest rightRest same
  simp only [quote, cons_append, List.cons.injEq, true_and] at same
  obtain ⟨chars, rests⟩ := flatMap_terminated escapeChar_unambiguous quotation escapeChar_head _ _ _ _ same
  exact ⟨String.toList_inj.mp chars, rests⟩

/-! ## Objects -/

mutual
inductive Json where
  | str : String → Json
  | obj : Fields → Json

/-- The members of an object, in the order they are written. -/
inductive Fields where
  | nil : Fields
  | cons : String → Json → Fields → Fields
end

def Fields.ofList : List (String × Json) → Fields
  | [] => .nil
  | (key, value) :: rest => .cons key value (ofList rest)

theorem Fields.ofList_injective {left right : List (String × Json)} (same : ofList left = ofList right) :
    left = right := by
  induction left generalizing right with
  | nil =>
    cases right with
    | nil => rfl
    | cons member members => simp [ofList] at same
  | cons leftMember leftMembers ih =>
    cases right with
    | nil => simp [ofList] at same
    | cons rightMember rightMembers =>
      simp only [ofList, Fields.cons.injEq] at same
      obtain ⟨keys, values, rests⟩ := same
      rw [ih rests, Prod.ext keys values]

mutual
/-- `serde_json::to_vec`, before the characters are encoded as UTF-8. -/
def Json.render : Json → List Char
  | .str text => quote text
  | .obj .nil => ['{', '}']
  | .obj (.cons key value rest) => '{' :: (quote key ++ ':' :: (value.render ++ rest.renderMore))

/-- The members after the first and the closing brace. -/
def Fields.renderMore : Fields → List Char
  | .nil => ['}']
  | .cons key value rest => ',' :: (quote key ++ ':' :: (value.render ++ rest.renderMore))
end

mutual
theorem Json.render_unambiguous : ∀ (left right : Json) (leftRest rightRest : List Char),
    left.render ++ leftRest = right.render ++ rightRest → left = right ∧ leftRest = rightRest
  | .str left, .str right, leftRest, rightRest, same => by
    obtain ⟨texts, rests⟩ := quote_unambiguous left right leftRest rightRest (by simpa only [Json.render] using same)
    exact ⟨by rw [texts], rests⟩
  | .obj .nil, .obj .nil, leftRest, rightRest, same => by
    simpa [Json.render] using same
  | .obj (.cons leftKey leftValue leftFields), .obj (.cons rightKey rightValue rightFields),
      leftRest, rightRest, same => by
    have more : (Fields.cons leftKey leftValue leftFields).renderMore ++ leftRest =
        (Fields.cons rightKey rightValue rightFields).renderMore ++ rightRest := by
      simpa [Json.render, Fields.renderMore] using same
    obtain ⟨fields, rests⟩ := Fields.renderMore_unambiguous _ _ _ _ more
    exact ⟨by rw [fields], rests⟩
  | .str _, .obj fields, _, _, same => by
    cases fields <;> simp [Json.render, quote, quotation] at same
  | .obj fields, .str _, _, _, same => by
    cases fields <;> simp [Json.render, quote, quotation] at same
  | .obj .nil, .obj (.cons _ _ _), _, _, same => by
    simp [Json.render, quote, quotation] at same
  | .obj (.cons _ _ _), .obj .nil, _, _, same => by
    simp [Json.render, quote, quotation] at same

theorem Fields.renderMore_unambiguous : ∀ (left right : Fields) (leftRest rightRest : List Char),
    left.renderMore ++ leftRest = right.renderMore ++ rightRest → left = right ∧ leftRest = rightRest
  | .nil, .nil, leftRest, rightRest, same => by
    simpa [Fields.renderMore] using same
  | .cons leftKey leftValue leftFields, .cons rightKey rightValue rightFields, leftRest, rightRest, same => by
    simp only [Fields.renderMore, cons_append, append_assoc, List.cons.injEq, true_and] at same
    obtain ⟨keys, same⟩ := quote_unambiguous _ _ _ _ same
    simp only [List.cons.injEq, true_and] at same
    obtain ⟨values, same⟩ := leftValue.render_unambiguous _ _ _ same
    obtain ⟨fields, rests⟩ := leftFields.renderMore_unambiguous _ _ _ same
    exact ⟨by rw [keys, values, fields], rests⟩
  | .nil, .cons _ _ _, _, _, same => by
    simp [Fields.renderMore] at same
  | .cons _ _ _, .nil, _, _, same => by
    simp [Fields.renderMore] at same
end

/-- `str::as_bytes`. -/
def utf8 (text : String) : List UInt8 := text.toUTF8.data.toList

theorem utf8_injective {left right : String} (same : utf8 left = utf8 right) : left = right := by
  have arrays : left.toByteArray = right.toByteArray := ByteArray.ext (Array.toList_inj.mp same)
  exact String.toByteArray_inj.mp arrays

/-- The bytes of a JSON document. -/
def Json.toBytes (document : Json) : List UInt8 := utf8 (String.ofList document.render)

theorem Json.toBytes_injective {left right : Json} (same : left.toBytes = right.toBytes) : left = right := by
  have texts : left.render = right.render := String.ofList_injective (utf8_injective same)
  exact (left.render_unambiguous right [] [] (by simpa using texts)).1

end Index.Lib
