import Mathlib
import Index.Efx.Identity

/-! # Identity is Merkle equality

Two effects, of one plan or of two, get the same identity exactly when they are the same tree of
kinds, executors, literals and field names.  Names, metadata and declaration order are not part of
the tree; everything upstream is. -/

namespace Index.Efx

open Index.Lib List

/-- Two effects of two plans are the same Merkle tree: equal in kind, executor and literals, with the
same fields read under the same keys from effects that are the same tree again. -/
inductive MerkleEq (left right : Plan) : Effect → Effect → Prop
  | node {effect other : Effect} (kind : effect.kind = other.kind) (executor : effect.executor = other.executor)
      (literals : ∀ (key : String) (literal : Literal),
        effect.inputs[key]? = some (.literal literal) ↔ other.inputs[key]? = some (.literal literal))
      (fields : ∀ (key field : String),
        (∃ target, effect.inputs[key]? = some (.ref ⟨target, field⟩)) ↔
          ∃ target, other.inputs[key]? = some (.ref ⟨target, field⟩))
      (referenced : ∀ (key : String) (r s : OutputRef) (source source' : Effect),
        effect.inputs[key]? = some (.ref r) → other.inputs[key]? = some (.ref s) →
        left.get r.effect = some source → right.get s.effect = some source' → MerkleEq left right source source') :
      MerkleEq left right effect other

/-- `path` leads from an effect through its reference inputs to an upstream effect. -/
inductive Upstream (plan : Plan) : Effect → List String → Effect → Prop
  | here {effect : Effect} : Upstream plan effect [] effect
  | there {effect source upstream : Effect} {key : String} {r : OutputRef} {path : List String} :
      effect.inputs[key]? = some (.ref r) → plan.get r.effect = some source →
      Upstream plan source path upstream → Upstream plan effect (key :: path) upstream

/-- Two inputs with the same content: equal literals, or the same field of effects with one identity. -/
def SameInput (ids other : BTreeMap String EffectId) : Value → Value → Prop
  | .literal left, .literal right => left = right
  | .ref r, .ref s => r.field = s.field ∧ ids[r.effect]? = other[s.effect]?
  | _, _ => False

/-- Two effects with the same content, one level deep. -/
structure SameNode (ids otherIds : BTreeMap String EffectId) (effect other : Effect) : Prop where
  kind : effect.kind = other.kind
  executor : effect.executor = other.executor
  inputs : ∀ key : String, Option.Rel (SameInput ids otherIds) effect.inputs[key]? other.inputs[key]?

def Value.rename (rename : String → String) : Value → Value
  | .literal content => .literal content
  | .ref r => .ref ⟨rename r.effect, r.field⟩

/-- `other` has every effect of `plan` under a new name, its references renamed alike, at any place
of the declaration order and with any metadata. -/
def Renames (rename : String → String) (plan other : Plan) : Prop :=
  ∀ effect ∈ plan.effects, ∃ image ∈ other.effects, image.name = rename effect.name ∧
    image.kind = effect.kind ∧ image.executor = effect.executor ∧
    ∀ key : String, image.inputs[key]? = effect.inputs[key]?.map (Value.rename rename)

/-- `effect` differs from `other` in its kind, its executor or one of its literals. -/
def Edited (effect other : Effect) : Prop :=
  effect.kind ≠ other.kind ∨ effect.executor ≠ other.executor ∨
    ∃ (key : String) (literal : Literal),
      effect.inputs[key]? = some (.literal literal) ∧ other.inputs[key]? ≠ some (.literal literal)

/-! ## One level -/

section Hashing

variable {sha256 : List UInt8 → Digest} {ids otherIds : BTreeMap String EffectId} {effect other : Effect}

theorem idInput_eq_iff {value otherValue : Value} {input otherInput : IdInput}
    (resolved : idInput sha256 ids value = .ok input) (otherResolved : idInput sha256 otherIds otherValue = .ok otherInput)
    (free : ∀ left right, value = .literal left → otherValue = .literal right →
      sha256 left.preimage = sha256 right.preimage → left.preimage = right.preimage) :
    input = otherInput ↔ SameInput ids otherIds value otherValue := by
  cases value with
  | literal left =>
    simp only [idInput, Except.ok.injEq] at resolved
    subst resolved
    cases otherValue with
    | literal right =>
      simp only [idInput, Except.ok.injEq] at otherResolved
      subst otherResolved
      constructor
      · intro same
        injection same with same
        exact Literal.preimage_injective (free left right rfl rfl (Vector.toList_inj.mp (hexEncode_injective same)))
      · rintro rfl
        rfl
    | ref s =>
      simp only [idInput] at otherResolved
      split at otherResolved <;> simp_all [SameInput]
      subst otherResolved
      simp
  | ref r =>
    simp only [idInput] at resolved
    split at resolved
    next id found =>
      cases resolved
      cases otherValue with
      | literal right =>
        simp only [idInput, Except.ok.injEq] at otherResolved
        subst otherResolved
        simp [SameInput]
      | ref s =>
        simp only [idInput] at otherResolved
        split at otherResolved
        next otherId otherFound =>
          cases otherResolved
          simp only [IdInput.ref.injEq, SameInput, found, otherFound, Option.some.injEq]
          constructor
          · rintro ⟨hex, field⟩
            exact ⟨field, EffectId.toHex_injective hex⟩
          · rintro ⟨field, id⟩
            exact ⟨by rw [id], field⟩
        next => cases otherResolved
    next => cases resolved

theorem Effect.literal_mem_hashed {key : String} {literal : Literal}
    (present : effect.inputs[key]? = some (.literal literal)) : literal.preimage ∈ effect.hashed sha256 ids := by
  refine mem_append_left _ (mem_filterMap.mpr ⟨.literal literal, ?_, rfl⟩)
  exact BTreeMap.mem_values.mpr ⟨key, present⟩

theorem Effect.canonical_mem_hashed {document : IdDocument} (built : idDocument sha256 ids effect = .ok document) :
    document.canonical ∈ effect.hashed sha256 ids := by
  simp [Effect.hashed, built]

theorem idDocument_ok {document : IdDocument} (built : idDocument sha256 ids effect = .ok document) :
    document.executor = effect.executor ∧ document.kind = effect.kind ∧
      ∀ key : String, Option.Rel (fun value input => idInput sha256 ids value = .ok input)
        effect.inputs[key]? document.inputs[key]? := by
  unfold idDocument at built
  split at built
  next => cases built
  next inputs mapped =>
    cases built
    exact ⟨rfl, rfl, fun key => BTreeMap.tryMap_ok mapped key⟩

/-- Two documents agree exactly when the effects agree one level deep. -/
theorem idDocument_eq_iff {document otherDocument : IdDocument}
    (built : idDocument sha256 ids effect = .ok document)
    (otherBuilt : idDocument sha256 otherIds other = .ok otherDocument)
    (free : CollisionFree sha256 (effect.hashed sha256 ids ++ other.hashed sha256 otherIds)) :
    document = otherDocument ↔ SameNode ids otherIds effect other := by
  obtain ⟨executor, kind, inputs⟩ := idDocument_ok built
  obtain ⟨otherExecutor, otherKind, otherInputs⟩ := idDocument_ok otherBuilt
  have entries : ∀ key : String, document.inputs[key]? = otherDocument.inputs[key]? ↔
      Option.Rel (SameInput ids otherIds) effect.inputs[key]? other.inputs[key]? := by
    intro key
    have related := inputs key
    have otherRelated := otherInputs key
    generalize present : effect.inputs[key]? = value at related ⊢
    generalize otherPresent : other.inputs[key]? = otherValue at otherRelated ⊢
    generalize document.inputs[key]? = input at related ⊢
    generalize otherDocument.inputs[key]? = otherInput at otherRelated ⊢
    cases related with
    | none => cases otherRelated <;> simp
    | some resolved =>
      cases otherRelated with
      | none => simp
      | some otherResolved =>
        rw [Option.some.injEq, Option.rel_some_some]
        apply idInput_eq_iff resolved otherResolved
        rintro left right rfl rfl
        exact free _ (mem_append_left _ (Effect.literal_mem_hashed present)) _
          (mem_append_right _ (Effect.literal_mem_hashed otherPresent))
  constructor
  · rintro rfl
    exact ⟨kind.symm.trans otherKind, executor.symm.trans otherExecutor, fun key => (entries key).mp rfl⟩
  · intro same
    have inputsEqual : document.inputs = otherDocument.inputs :=
      Std.ExtTreeMap.ext_getElem? fun key => (entries key).mpr (same.inputs key)
    cases document
    cases otherDocument
    simp_all [same.kind, same.executor]

/-- One identity for two effects of two identified plans is agreement one level deep. -/
theorem Identifies.same_iff {effects otherEffects : List Effect} (identifies : Identifies sha256 ids effects)
    (otherIdentifies : Identifies sha256 otherIds otherEffects)
    (free : CollisionFree sha256
      (effects.flatMap (Effect.hashed sha256 ids) ++ otherEffects.flatMap (Effect.hashed sha256 otherIds)))
    (member : effect ∈ effects) (otherMember : other ∈ otherEffects) :
    ids[effect.name]? = otherIds[other.name]? ↔ SameNode ids otherIds effect other := by
  obtain ⟨document, built, found⟩ := identifies effect member
  obtain ⟨otherDocument, otherBuilt, otherFound⟩ := otherIdentifies other otherMember
  have freeHere : CollisionFree sha256 (effect.hashed sha256 ids ++ other.hashed sha256 otherIds) :=
    free.mono (append_subset.mpr
      ⟨fun _ hashed => mem_append_left _ (mem_flatMap_of_mem member hashed),
        fun _ hashed => mem_append_right _ (mem_flatMap_of_mem otherMember hashed)⟩)
  rw [found, otherFound, Option.some.injEq, EffectId.mk.injEq, ← idDocument_eq_iff built otherBuilt freeHere]
  constructor
  · intro same
    exact IdDocument.canonical_injective (freeHere _ (mem_append_left _ (Effect.canonical_mem_hashed built)) _
      (mem_append_right _ (Effect.canonical_mem_hashed otherBuilt)) same)
  · rintro rfl
    rfl

theorem Plan.hashed_eq {plan : Plan} (identified : plan.effectIds sha256 = .ok ids) :
    plan.hashed sha256 = plan.effects.flatMap (Effect.hashed sha256 ids) := by
  simp [Plan.hashed, identified]

end Hashing

/-! ## Whole trees -/

section Trees

variable {left right : Plan} {ids otherIds : BTreeMap String EffectId} {effect other : Effect}

theorem Plan.Valid.source {plan : Plan} (valid : plan.Valid) (member : effect ∈ plan.effects) {key : String}
    {r : OutputRef} (present : effect.inputs[key]? = some (.ref r)) : ∃ source, plan.get r.effect = some source := by
  have known := valid.known effect member r.effect (Effect.mem_references.mpr ⟨key, r, present, rfl⟩)
  obtain ⟨source, sourceMember, name⟩ := mem_map.mp known
  exact ⟨source, Plan.get_eq_some.mpr ⟨sourceMember, name⟩⟩

/-- Agreement one level deep, with the referenced effects already known to be the same trees exactly
when their identities agree, is sameness of trees. -/
theorem sameNode_iff_merkleEq (valid : left.Valid) (otherValid : right.Valid)
    (member : effect ∈ left.effects) (otherMember : other ∈ right.effects)
    (referenced : ∀ source ∈ left.effects, source.name ∈ effect.references → ∀ source' ∈ right.effects,
      (ids[source.name]? = otherIds[source'.name]? ↔ MerkleEq left right source source')) :
    SameNode ids otherIds effect other ↔ MerkleEq left right effect other := by
  constructor
  · intro same
    refine .node same.kind same.executor ?_ ?_ ?_
    · intro key literal
      have related := same.inputs key
      generalize effect.inputs[key]? = value at related ⊢
      generalize other.inputs[key]? = otherValue at related ⊢
      cases related with
      | none => simp
      | @some a b agree => cases a <;> cases b <;> simp_all [SameInput]
    · intro key field
      have related := same.inputs key
      generalize effect.inputs[key]? = value at related ⊢
      generalize other.inputs[key]? = otherValue at related ⊢
      cases related with
      | none => simp
      | @some a b agree =>
        cases a <;> cases b <;> simp_all [SameInput, OutputRef.ext_iff]
    · intro key r s source source' present otherPresent found otherFound
      have related := same.inputs key
      rw [present, otherPresent, Option.rel_some_some] at related
      obtain ⟨sourceMember, name⟩ := Plan.get_eq_some.mp found
      obtain ⟨sourceMember', name'⟩ := Plan.get_eq_some.mp otherFound
      refine (referenced source sourceMember ?_ source' sourceMember').mp ?_
      · exact Effect.mem_references.mpr ⟨key, r, present, name.symm⟩
      · rw [name, name']
        exact related.2
  · rintro ⟨kind, executor, literals, fields, sources⟩
    refine ⟨kind, executor, fun key => ?_⟩
    cases present : effect.inputs[key]? with
    | none =>
      cases otherPresent : other.inputs[key]? with
      | none => exact .none
      | some value =>
        cases value with
        | literal literal => simp [(literals key literal).mpr otherPresent] at present
        | ref s =>
          obtain ⟨target, found⟩ := (fields key s.field).mpr ⟨s.effect, otherPresent⟩
          simp [found] at present
    | some value =>
      cases value with
      | literal literal =>
        rw [(literals key literal).mp present]
        exact .some rfl
      | ref r =>
        obtain ⟨target, otherPresent⟩ := (fields key r.field).mp ⟨r.effect, present⟩
        obtain ⟨source, found⟩ := valid.source member present
        obtain ⟨source', found'⟩ := otherValid.source otherMember otherPresent
        obtain ⟨sourceMember, name⟩ := Plan.get_eq_some.mp found
        obtain ⟨sourceMember', name'⟩ := Plan.get_eq_some.mp found'
        have same := (referenced source sourceMember (Effect.mem_references.mpr ⟨key, r, present, name.symm⟩)
          source' sourceMember').mpr (sources key r _ source source' present otherPresent found found')
        rw [otherPresent]
        refine .some ⟨rfl, ?_⟩
        rw [← name, same, name']

/-- A renamed, reordered or re-annotated effect is the same tree. -/
theorem Renames.merkleEq {rename : String → String} (valid : left.Valid) (renames : Renames rename left right) :
    ∀ effect ∈ left.effects, ∀ image ∈ right.effects, image.name = rename effect.name →
      MerkleEq left right effect image := by
  refine valid.forall_of_references ?_
  intro effect member ih image imageMember imageName
  obtain ⟨found, foundMember, foundName, kind, executor, inputs⟩ := renames effect member
  have same : found = image :=
    inj_on_of_nodup_map right.unique foundMember imageMember (foundName.trans imageName.symm)
  subst same
  refine .node kind.symm executor.symm ?_ ?_ ?_
  · intro key literal
    rw [inputs key]
    cases effect.inputs[key]? with
    | none => simp
    | some value => cases value <;> simp [Value.rename]
  · intro key field
    rw [inputs key]
    cases effect.inputs[key]? with
    | none => simp
    | some value => cases value <;> simp [Value.rename, OutputRef.ext_iff]
  · intro key r s source source' present imagePresent source_found source_found'
    obtain ⟨sourceMember, name⟩ := Plan.get_eq_some.mp source_found
    obtain ⟨sourceMember', name'⟩ := Plan.get_eq_some.mp source_found'
    have target : rename r.effect = s.effect := by
      have mapped := inputs key
      rw [present, imagePresent] at mapped
      simp only [Option.map_some, Value.rename, Option.some.injEq, Value.ref.injEq] at mapped
      rw [mapped]
    refine ih source sourceMember ?_ source' sourceMember' ?_
    · exact Effect.mem_references.mpr ⟨key, r, present, name.symm⟩
    · rw [name, name', target]

/-- The same tree has the same content at the end of every path. -/
theorem MerkleEq.not_edited {path : List String} {upstream otherUpstream : Effect}
    (same : MerkleEq left right effect other) (reaches : Upstream left effect path upstream)
    (otherReaches : Upstream right other path otherUpstream) : ¬ Edited upstream otherUpstream := by
  induction reaches generalizing other with
  | here =>
    cases otherReaches
    obtain ⟨kind, executor, literals, -, -⟩ := same
    rintro (differ | differ | ⟨key, literal, present, absent⟩)
    · exact differ kind
    · exact differ executor
    · exact absent ((literals key literal).mp present)
  | there present found _ ih =>
    cases otherReaches with
    | there otherPresent otherFound otherReaches =>
      obtain ⟨-, -, -, -, referenced⟩ := same
      exact ih (referenced _ _ _ _ _ present otherPresent found otherFound) otherReaches

/-- Across two identified plans, one identity is one Merkle tree. -/
theorem Identifies.same_iff_merkleEq {sha256 : List UInt8 → Digest} (valid : left.Valid) (otherValid : right.Valid)
    (identifies : Identifies sha256 ids left.effects) (otherIdentifies : Identifies sha256 otherIds right.effects)
    (free : CollisionFree sha256
      (left.effects.flatMap (Effect.hashed sha256 ids) ++ right.effects.flatMap (Effect.hashed sha256 otherIds))) :
    ∀ effect ∈ left.effects, ∀ other ∈ right.effects,
      (ids[effect.name]? = otherIds[other.name]? ↔ MerkleEq left right effect other) := by
  refine valid.forall_of_references ?_
  intro effect member ih other otherMember
  rw [identifies.same_iff otherIdentifies free member otherMember]
  exact sameNode_iff_merkleEq valid otherValid member otherMember ih

/-- `effect_ids` succeeds on valid plans and gives two effects one identity exactly when they agree one
level deep with equal identities below, which is exactly when they are the same Merkle tree.  So names,
metadata and declaration order do not matter, and an edit anywhere upstream shows. -/
theorem effectIds_eq_iff_merkleEq (sha256 : List UInt8 → Digest) {left right : Plan}
    (valid : left.Valid) (otherValid : right.Valid)
    (free : CollisionFree sha256 (left.hashed sha256 ++ right.hashed sha256)) :
    ∃ ids otherIds, left.effectIds sha256 = .ok ids ∧ right.effectIds sha256 = .ok otherIds ∧
      (∀ effect ∈ left.effects, ∀ other ∈ right.effects, ∃ id otherId,
        ids[effect.name]? = some id ∧ otherIds[other.name]? = some otherId ∧
        (id = otherId ↔ SameNode ids otherIds effect other) ∧
        (id = otherId ↔ MerkleEq left right effect other)) ∧
      (∀ rename, Renames rename left right → ∀ effect ∈ left.effects,
        otherIds[rename effect.name]? = ids[effect.name]?) ∧
      ∀ effect ∈ left.effects, ∀ other ∈ right.effects, ∀ path upstream otherUpstream,
        Upstream left effect path upstream → Upstream right other path otherUpstream →
        Edited upstream otherUpstream → ids[effect.name]? ≠ otherIds[other.name]? := by
  obtain ⟨ids, identified, identifies⟩ := valid.effectIds sha256
  obtain ⟨otherIds, otherIdentified, otherIdentifies⟩ := otherValid.effectIds sha256
  rw [Plan.hashed_eq identified, Plan.hashed_eq otherIdentified] at free
  have merkle := identifies.same_iff_merkleEq valid otherValid otherIdentifies free
  refine ⟨ids, otherIds, identified, otherIdentified, ?_, ?_, ?_⟩
  · intro effect member other otherMember
    obtain ⟨document, -, found⟩ := identifies effect member
    obtain ⟨otherDocument, -, otherFound⟩ := otherIdentifies other otherMember
    have node := identifies.same_iff otherIdentifies free member otherMember
    have tree := merkle effect member other otherMember
    rw [found, otherFound, Option.some.injEq] at node tree
    exact ⟨_, _, found, otherFound, node, tree⟩
  · intro rename renames effect member
    obtain ⟨image, imageMember, name, -⟩ := renames effect member
    rw [← name]
    exact ((merkle effect member image imageMember).mpr
      (renames.merkleEq valid effect member image imageMember name)).symm
  · intro effect member other otherMember path upstream otherUpstream reaches otherReaches edited same
    exact ((merkle effect member other otherMember).mp same).not_edited reaches otherReaches edited

def writeThenRead : Plan :=
  ⟨[{ name := "write", kind := "file", executor := "fs", inputs := .ofList [("content", Value.literal (.str "x"))] },
    { name := "read", kind := "file", executor := "fs", inputs := .ofList [("path", Value.ref ⟨"write", "path"⟩)] }],
   by decide⟩

/-- `writeThenRead` under other names, in the other order and with other metadata. -/
def readAfterWrite : Plan :=
  ⟨[{ name := "r", kind := "file", executor := "fs", inputs := .ofList [("path", Value.ref ⟨"w", "path"⟩)],
      «meta» := { idempotent := false } },
    { name := "w", kind := "file", executor := "fs", inputs := .ofList [("content", Value.literal (.str "x"))] }],
   by decide⟩

theorem writeThenRead_valid : writeThenRead.Valid :=
  Plan.valid_of_topoOrder (show writeThenRead.topoOrder = .ok writeThenRead.effects by decide +kernel)

theorem readAfterWrite_valid : readAfterWrite.Valid :=
  Plan.valid_of_topoOrder (show readAfterWrite.topoOrder = .ok readAfterWrite.effects.reverse by decide +kernel)

theorem writeThenRead_collisionFree :
    CollisionFree Sha256.digest (writeThenRead.hashed Sha256.digest ++ readAfterWrite.hashed Sha256.digest) := by
  decide +kernel

theorem writeThenRead_renamed :
    ∃ ids otherIds, writeThenRead.effectIds Sha256.digest = .ok ids ∧
      readAfterWrite.effectIds Sha256.digest = .ok otherIds ∧ otherIds["r"]? = ids["read"]? := by
  obtain ⟨ids, otherIds, identified, otherIdentified, -, renamed, -⟩ :=
    effectIds_eq_iff_merkleEq Sha256.digest writeThenRead_valid readAfterWrite_valid writeThenRead_collisionFree
  refine ⟨ids, otherIds, identified, otherIdentified, ?_⟩
  have renames : Renames (fun name => if name = "read" then "r" else "w") writeThenRead readAfterWrite := by
    intro effect member
    simp only [writeThenRead, mem_cons, not_mem_nil, or_false] at member
    rcases member with rfl | rfl
    · refine ⟨_, .tail _ (.head _), rfl, rfl, rfl, fun key => ?_⟩
      simp only [Std.ExtTreeMap.ofList_singleton, BTreeMap.getElem?_insert]
      split <;> simp [Value.rename]
    · refine ⟨_, .head _, rfl, rfl, rfl, fun key => ?_⟩
      simp only [Std.ExtTreeMap.ofList_singleton, BTreeMap.getElem?_insert]
      split <;> simp [Value.rename]
  exact renamed _ renames _ (.tail _ (.head _))

end Trees

end Index.Efx
