import Mathlib
import Index.Efx.Plan
import Index.Lib.Json

/-! # Content-addressed identity

`Plan::effect_ids`: the identity of an effect is the digest of a canonical JSON document over its
kind, its executor and its inputs, a literal entering as the digest of its value and a reference as
the identity of the effect it points at.  The digest is a parameter; its results are stated for every
digest that separates the byte strings the plans at hand make it hash. -/

namespace Index.Efx

open Index.Lib List

/-! ## Definitions -/

/-- What `Literal::content_hash` feeds to the hasher. -/
def Literal.preimage : Literal → List UInt8
  | .str text => utf8 "str:" ++ utf8 text
  | .int n => utf8 "int:" ++ utf8 n.toInt.repr
  | .bool b => utf8 "bool:" ++ utf8 (toString b)

structure EffectId where
  bytes : Digest
deriving DecidableEq

def EffectId.toHex (id : EffectId) : String := hexEncode id.bytes.toList

/-- One resolved input as it enters the identity hash. -/
inductive IdInput where
  | lit : String → IdInput
  | ref (effect field : String) : IdInput

structure IdDocument where
  executor : String
  inputs : BTreeMap String IdInput
  kind : String

def IdInput.toJson : IdInput → Json
  | .lit hash => .obj (.ofList [("lit", .str hash)])
  | .ref effect field =>
    .obj (.ofList [("ref", .obj (.ofList [("effect", .str effect), ("field", .str field)]))])

def IdDocument.toJson (document : IdDocument) : Json :=
  .obj (.ofList
    [("executor", .str document.executor),
     ("inputs", .obj (.ofList (document.inputs.toList.map fun entry => (entry.1, entry.2.toJson)))),
     ("kind", .str document.kind)])

/-- The canonical bytes of a document. -/
def IdDocument.canonical (document : IdDocument) : List UInt8 := document.toJson.toBytes

section Hashing

variable (sha256 : List UInt8 → Digest)

def Literal.contentHash (literal : Literal) : String := hexEncode (sha256 literal.preimage).toList

def idInput (ids : BTreeMap String EffectId) : Value → Except (Fault PlanError) IdInput
  | .literal literal => .ok (.lit (literal.contentHash sha256))
  | .ref r =>
    -- `ids[&r.effect]` panics on a missing key.
    match ids[r.effect]? with
    | some id => .ok (.ref id.toHex r.field)
    | none => .error .panicked

def idDocument (ids : BTreeMap String EffectId) (effect : Effect) : Except (Fault PlanError) IdDocument :=
  match BTreeMap.tryMap (fun _ value => idInput sha256 ids value) effect.inputs with
  | .error fault => .error fault
  | .ok inputs => .ok { executor := effect.executor, inputs, kind := effect.kind }

def identify (ids : BTreeMap String EffectId) (effect : Effect) :
    Except (Fault PlanError) (BTreeMap String EffectId) :=
  match idDocument sha256 ids effect with
  | .error fault => .error fault
  | .ok document => .ok (ids.insert effect.name ⟨sha256 document.canonical⟩)

def identifyAll : List Effect → BTreeMap String EffectId → Except (Fault PlanError) (BTreeMap String EffectId)
  | [], ids => .ok ids
  | effect :: effects, ids =>
    match identify sha256 ids effect with
    | .error fault => .error fault
    | .ok ids => identifyAll effects ids

def Plan.effectIds (plan : Plan) : Except (Fault PlanError) (BTreeMap String EffectId) :=
  match plan.topoOrder with
  | .error error => .error (.raised error)
  | .ok order => identifyAll sha256 order ∅

/-- The byte strings `effect_ids` hashes for one effect. -/
def Effect.hashed (ids : BTreeMap String EffectId) (effect : Effect) : List (List UInt8) :=
  ((BTreeMap.values effect.inputs).filterMap fun value =>
    match value with
    | .literal literal => some literal.preimage
    | .ref _ => none) ++
  match idDocument sha256 ids effect with
  | .ok document => [document.canonical]
  | .error _ => []

/-- The byte strings `effect_ids` hashes for a plan. -/
def Plan.hashed (plan : Plan) : List (List UInt8) :=
  match plan.effectIds sha256 with
  | .ok ids => plan.effects.flatMap (Effect.hashed sha256 ids)
  | .error _ => []

end Hashing

/-! ## The encodings are injective -/

theorem Literal.preimage_injective {left right : Literal} (same : left.preimage = right.preimage) : left = right := by
  have str : utf8 "str:" = [115, 116, 114, 58] := by decide
  have int : utf8 "int:" = [105, 110, 116, 58] := by decide
  have bool : utf8 "bool:" = [98, 111, 111, 108, 58] := by decide
  cases left with
  | str text =>
    cases right with
    | str other => rw [utf8_injective (append_cancel_left same)]
    | int _ | bool _ => simp [preimage, str, int, bool] at same
  | int n =>
    cases right with
    | int other =>
      rw [Int64.toInt_inj.mp (Int.repr_injective (utf8_injective (append_cancel_left same)))]
    | str _ | bool _ => simp [preimage, str, int, bool] at same
  | bool b =>
    cases right with
    | bool other =>
      have texts : toString b = toString other := utf8_injective (append_cancel_left same)
      revert texts
      cases b <;> cases other <;> decide
    | str _ | int _ => simp [preimage, str, int, bool] at same

theorem EffectId.toHex_injective {left right : EffectId} (same : left.toHex = right.toHex) : left = right := by
  exact congrArg EffectId.mk (Vector.toList_inj.mp (hexEncode_injective same))

theorem IdInput.toJson_injective : Function.Injective IdInput.toJson := by
  intro left right same
  cases left <;> cases right <;> simp_all [toJson, Fields.ofList]

theorem IdDocument.canonical_injective {left right : IdDocument} (same : left.canonical = right.canonical) :
    left = right := by
  have documents := Json.toBytes_injective same
  simp only [toJson, Json.obj.injEq, Fields.ofList, Fields.cons.injEq, Json.str.injEq, true_and, and_true] at documents
  obtain ⟨executor, inputs, kind⟩ := documents
  have entries : left.inputs.toList = right.inputs.toList := by
    refine map_injective_iff.mpr ?_ (Fields.ofList_injective inputs)
    rintro ⟨key, input⟩ ⟨otherKey, otherInput⟩ equal
    simp only [Prod.mk.injEq] at equal
    rw [equal.1, IdInput.toJson_injective equal.2]
  cases left
  simp_all [Std.ExtTreeMap.toList_inj]

/-! ## What `effect_ids` computes -/

section Hashing

variable {sha256 : List UInt8 → Digest}

theorem idInput_congr {ids other : BTreeMap String EffectId} {value : Value}
    (agree : ∀ target, value.reference = some target → ids[target]? = other[target]?) :
    idInput sha256 ids value = idInput sha256 other value := by
  cases value with
  | literal literal => rfl
  | ref r => simp only [idInput, agree r.effect rfl]

/-- A document depends on the identities of the referenced effects only. -/
theorem idDocument_congr {ids other : BTreeMap String EffectId} {effect : Effect}
    (agree : ∀ target ∈ effect.references, ids[target]? = other[target]?) :
    idDocument sha256 ids effect = idDocument sha256 other effect := by
  unfold idDocument
  rw [BTreeMap.tryMap_congr]
  intro key value present
  apply idInput_congr
  intro target refers
  apply agree
  cases value with
  | literal literal => cases refers
  | ref r => exact Effect.mem_references.mpr ⟨key, r, present, by simpa [Value.reference] using refers⟩

theorem idDocument_total (sha256 : List UInt8 → Digest) {ids : BTreeMap String EffectId} {effect : Effect}
    (known : ∀ target ∈ effect.references, ids[target]? ≠ none) :
    ∃ document, idDocument sha256 ids effect = .ok document := by
  unfold idDocument
  split
  next fault failed =>
    obtain ⟨key, value, present, raised⟩ := BTreeMap.tryMap_error failed
    cases value with
    | literal literal => cases raised
    | ref r =>
      have target := known r.effect (Effect.mem_references.mpr ⟨key, r, present, rfl⟩)
      simp only [idInput] at raised
      split at raised
      · cases raised
      · contradiction
  next inputs _ => exact ⟨_, rfl⟩

/-- `ids` gives every listed effect the digest of its document under `ids` itself. -/
def Identifies (sha256 : List UInt8 → Digest) (ids : BTreeMap String EffectId) (effects : List Effect) : Prop :=
  ∀ effect ∈ effects, ∃ document,
    idDocument sha256 ids effect = .ok document ∧ ids[effect.name]? = some ⟨sha256 document.canonical⟩

/-- The loop keeps the identities it has and adds those of the listed effects. -/
theorem identifyAll_spec (sha256 : List UInt8 → Digest) {done : List String} {effects : List Effect} (ids : BTreeMap String EffectId)
    (ordered : OrderedAfter Effect.name Effect.references done effects) (unique : (effects.map Effect.name).Nodup)
    (fresh : ∀ effect ∈ effects, effect.name ∉ done) (known : ∀ name ∈ done, ids[name]? ≠ none) :
    ∃ final, identifyAll sha256 effects ids = .ok final ∧
      (∀ name ∈ done, final[name]? = ids[name]?) ∧ Identifies sha256 final effects := by
  induction effects generalizing done ids with
  | nil => exact ⟨ids, rfl, fun _ _ => rfl, by simp [Identifies]⟩
  | cons effect effects ih =>
    obtain ⟨ready, rest⟩ := ordered
    simp only [map_cons, nodup_cons] at unique
    obtain ⟨headFresh, tailFresh⟩ := forall_mem_cons.mp fresh
    obtain ⟨document, built⟩ := idDocument_total sha256 fun target member => known target (ready target member)
    have keeps : ∀ name ∈ done, (ids.insert effect.name ⟨sha256 document.canonical⟩)[name]? = ids[name]? := by
      intro name member
      rw [BTreeMap.getElem?_insert, if_neg]
      rintro rfl
      exact headFresh member
    have distinct : ∀ other ∈ effects, other.name ∉ effect.name :: done := by
      intro other member
      rw [mem_cons, not_or]
      refine ⟨fun same => unique.1 (mem_map.mpr ⟨other, member, same⟩), tailFresh other member⟩
    have knownNow : ∀ name ∈ effect.name :: done,
        (ids.insert effect.name ⟨sha256 document.canonical⟩)[name]? ≠ none := by
      intro name member
      rcases mem_cons.mp member with rfl | member
      · simp
      · rw [keeps name member]
        exact known name member
    obtain ⟨final, identified, preserved, rest⟩ := ih _ rest unique.2 distinct knownNow
    have kept : ∀ name ∈ done, final[name]? = ids[name]? := by
      intro name member
      rw [preserved name (mem_cons_of_mem _ member), keeps name member]
    refine ⟨final, by simp only [identifyAll, identify, built, identified], kept, ?_⟩
    refine forall_mem_cons.mpr ⟨⟨document, ?_, ?_⟩, rest⟩
    · rw [← built]
      exact idDocument_congr fun target member => kept target (ready target member)
    · rw [preserved _ mem_cons_self]
      simp

/-- Every valid plan is identified, without a panic, and its identities are the digests of its
documents. -/
theorem Plan.Valid.effectIds {plan : Plan} (valid : plan.Valid) (sha256 : List UInt8 → Digest) :
    ∃ ids, plan.effectIds sha256 = .ok ids ∧ Identifies sha256 ids plan.effects := by
  obtain ⟨order, sorted⟩ := valid.topoOrder
  obtain ⟨perm, ordered⟩ := Plan.topoOrder_ok sorted
  obtain ⟨ids, identified, -, correct⟩ := identifyAll_spec sha256 ∅ ordered
    ((perm.map _).nodup_iff.mpr plan.unique) (by simp) (by simp)
  refine ⟨ids, by rw [Plan.effectIds, sorted]; exact identified, ?_⟩
  intro effect member
  exact correct effect (perm.mem_iff.mpr member)

end Hashing

/-- The golden identity of the source's own test. -/
example :
    (Plan.fromEffects
      [{ name := "a", kind := "file.write", executor := "file.write",
         inputs := .ofList [("content", Value.literal (.str "hello"))] }]).toOption.map (fun plan =>
      (plan.effectIds Sha256.digest).toOption.map fun ids => ids["a"]?.map EffectId.toHex) =
    some (some (some "e8c560d4d99134660d56a14fe244e067ef281334ce4f3b08e119fe756d57ad01")) := by
  decide +kernel

end Index.Efx
