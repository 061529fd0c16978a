import Mathlib
import Index.Lib.Rust

/-! # The drawn dependencies

The page draws an edge between two of its derivations when one needs the other and no derivation between them says so
already.  What is drawn has the same paths as what is needed. -/

namespace Index.NixWebMonitor

open Index.Lib List Relation

/-! ## The covers of an order -/

/-- A strict order with finitely many elements above each is generated by its covers. -/
theorem transGen_covers {α : Type*} {lt : α → α → Prop} (irrefl : ∀ a, ¬ lt a a) (trans : ∀ {a b c}, lt a b → lt b c → lt a c)
    (finite : ∀ a, {b | lt a b}.Finite) {a c : α} : TransGen (fun a c => lt a c ∧ ∀ b, lt a b → ¬ lt b c) a c ↔ lt a c := by
  let order : Preorder α :=
    { le := fun a b => a = b ∨ lt a b
      lt := lt
      le_refl := fun a => .inl rfl
      le_trans := by
        rintro a b c (rfl | below) (rfl | next)
        · exact .inl rfl
        · exact .inr next
        · exact .inr below
        · exact .inr (trans below next)
      lt_iff_le_not_ge := by
        refine fun a b => ⟨fun below => ⟨.inr below, ?_⟩, ?_⟩
        · rintro (rfl | above)
          · exact irrefl _ below
          · exact irrefl _ (trans below above)
        · rintro ⟨rfl | below, notAbove⟩
          · exact absurd (.inl rfl) notAbove
          · exact below }
  have intervals (a b : α) : (Set.Icc a b).Finite :=
    ((finite a).insert a).subset fun x inside => inside.1.imp Eq.symm id
  exact (@lt_iff_transGen_covBy α order (.ofFiniteIcc intervals) a c).symm

/-! ## The page -/

structure DerivationEdge where
  from_ : String
  to_ : String

def DerivationEdge.le (edge other : DerivationEdge) : Bool :=
  edge.from_ < other.from_ || edge.from_ = other.from_ && edge.to_ ≤ other.to_

section

variable (closureDeps : BTreeMap String (BTreeSet String)) (rendered : BTreeSet String)

def reachable (from_ : String) (closure : BTreeSet String) : List String :=
  closure.toList.filter fun to_ => to_ ≠ from_ && rendered.contains to_

def implied (reachable : List String) (to_ : String) : Bool :=
  reachable.any fun mid => mid ≠ to_ && closureDeps[mid]?.any (·.contains to_)

def dependencyEdges : List DerivationEdge :=
  let shown := closureDeps.toList.filter fun entry => rendered.contains entry.1
  (shown.flatMap fun (from_, closure) =>
    let reachable := reachable rendered from_ closure
    (reachable.filter fun to_ => !implied closureDeps reachable to_).map (DerivationEdge.mk from_)).mergeSort DerivationEdge.le

def rootCauseDerivations (built : BTreeSet String) : List String :=
  (built.toList.filter fun derivation =>
    closureDeps[derivation]?.any fun closure => !closure.toList.any fun input => built.contains input).mergeSort (· ≤ ·)

/-- No derivation needs itself, and the closures that are known are those of what the derivations need. -/
structure Closures (needs : String → String → Prop) : Prop where
  acyclic : ∀ derivation, ¬ TransGen needs derivation derivation
  known : ∀ derivation closure, closureDeps[derivation]? = some closure → ∀ input, input ∈ closure ↔ TransGen needs derivation input

/-- The closure of a derivation on the page is known, and has another one on the page. -/
def Above (from_ to_ : String) : Prop :=
  from_ ∈ rendered ∧ to_ ∈ rendered ∧ ∃ closure, closureDeps[from_]? = some closure ∧ to_ ∈ closure

end

section

variable {closureDeps : BTreeMap String (BTreeSet String)} {rendered : BTreeSet String} {needs : String → String → Prop}
  (closures : Closures closureDeps needs) {from_ to_ : String}
include closures

theorem Closures.above_iff : Above closureDeps rendered from_ to_ ↔
    from_ ∈ rendered ∧ to_ ∈ rendered ∧ from_ ∈ closureDeps ∧ TransGen needs from_ to_ := by
  refine and_congr_right fun _ => and_congr_right fun _ => ?_
  rw [BTreeMap.mem_iff, ← exists_and_right]
  exact exists_congr fun closure => and_congr_right fun found => closures.known from_ closure found to_

theorem Closures.ne_of_above (above : Above closureDeps rendered from_ to_) : to_ ≠ from_ := by
  rintro rfl
  exact closures.acyclic to_ (closures.above_iff.mp above).2.2.2

/-- An edge is drawn for a cover. -/
theorem Closures.mem_dependencyEdges : ⟨from_, to_⟩ ∈ dependencyEdges closureDeps rendered ↔
    Above closureDeps rendered from_ to_ ∧
      ∀ mid, Above closureDeps rendered from_ mid → ¬ Above closureDeps rendered mid to_ := by
  simp only [dependencyEdges, mem_mergeSort, mem_flatMap, Prod.exists, mem_filter, Std.ExtTreeMap.mem_toList_iff_getElem?_eq_some,
    mem_map, DerivationEdge.mk.injEq, Std.ExtTreeSet.contains_iff_mem, reachable, Std.ExtTreeSet.mem_toList, Bool.and_eq_true,
    decide_eq_true_eq, Bool.not_eq_true', implied, any_eq_false, Option.any_eq_true, not_and, not_exists]
  constructor
  · rintro ⟨_, closure, ⟨found, source⟩, _, ⟨⟨inside, -, target⟩, kept⟩, rfl, rfl⟩
    refine ⟨⟨source, target, closure, found, inside⟩, fun mid above below => ?_⟩
    obtain ⟨-, shown, _, found', between⟩ := id above
    obtain ⟨-, -, midClosure, midFound, reached⟩ := id below
    cases found.symm.trans found'
    exact kept mid ⟨between, closures.ne_of_above above, shown⟩ (closures.ne_of_above below).symm midClosure midFound reached
  · rintro ⟨above, covers⟩
    obtain ⟨source, target, closure, found, inside⟩ := id above
    refine ⟨_, closure, ⟨found, source⟩, _, ⟨⟨inside, closures.ne_of_above above, target⟩, ?_⟩, rfl, rfl⟩
    rintro mid ⟨between, -, shown⟩ - midClosure midFound reached
    exact covers mid ⟨source, shown, closure, found, between⟩ ⟨shown, target, midClosure, midFound, reached⟩

theorem Closures.transGen_dependencyEdges :
    TransGen (fun from_ to_ => ⟨from_, to_⟩ ∈ dependencyEdges closureDeps rendered) from_ to_ ↔
      Above closureDeps rendered from_ to_ := by
  simp only [closures.mem_dependencyEdges]
  refine transGen_covers (fun _ above => closures.ne_of_above above rfl) (fun above below => ?_) fun _ => ?_
  · obtain ⟨source, -, known, first⟩ := closures.above_iff.mp above
    obtain ⟨-, target, -, second⟩ := closures.above_iff.mp below
    exact closures.above_iff.mpr ⟨source, target, known, first.trans second⟩
  · exact rendered.toList.finite_toSet.subset fun _ above => Std.ExtTreeSet.mem_toList.mpr above.2.1

theorem Closures.mem_rootCauseDerivations {built : BTreeSet String} {derivation : String} :
    derivation ∈ rootCauseDerivations closureDeps built ↔
      derivation ∈ built ∧ derivation ∈ closureDeps ∧ ∀ input ∈ built, ¬ TransGen needs derivation input := by
  simp only [rootCauseDerivations, mem_mergeSort, mem_filter, Std.ExtTreeSet.mem_toList, Option.any_eq_true, Bool.not_eq_true',
    any_eq_false, Std.ExtTreeSet.contains_iff_mem, BTreeMap.mem_iff, ← exists_and_right]
  refine and_congr_right fun _ => exists_congr fun closure => and_congr_right fun found => ?_
  refine forall_congr' fun input => ?_
  rw [closures.known derivation closure found, imp_not_comm]

/-- The page draws the transitive reduction of what its derivations need, and the root causes are the built derivations
that need no built one. -/
theorem dependencyEdges_reduce (rendered built : BTreeSet String) :
    (∀ from_ ∈ rendered, from_ ∈ closureDeps → ∀ to_,
      TransGen (fun from_ to_ => ⟨from_, to_⟩ ∈ dependencyEdges closureDeps rendered) from_ to_ ↔
        to_ ∈ rendered ∧ TransGen needs from_ to_) ∧
    (∀ from_ mid to_, mid ∈ rendered → mid ∈ closureDeps → TransGen needs from_ mid → TransGen needs mid to_ →
      ⟨from_, to_⟩ ∉ dependencyEdges closureDeps rendered) ∧
    ∀ derivation, derivation ∈ rootCauseDerivations closureDeps built ↔
      derivation ∈ built ∧ derivation ∈ closureDeps ∧ ∀ input ∈ built, ¬ TransGen needs derivation input := by
  refine ⟨fun from_ source known to_ => ?_, fun from_ mid to_ shown known first second drawn => ?_,
    fun _ => closures.mem_rootCauseDerivations⟩
  · rw [closures.transGen_dependencyEdges, closures.above_iff]
    tauto
  · obtain ⟨above, covers⟩ := closures.mem_dependencyEdges.mp drawn
    obtain ⟨source, target, fromKnown, -⟩ := closures.above_iff.mp above
    exact covers mid (closures.above_iff.mpr ⟨source, shown, fromKnown, first⟩) (closures.above_iff.mpr ⟨shown, target, known, second⟩)

end

/-- A derivation that needs one other. -/
theorem app_lib_drawn : TransGen (fun from_ to_ => ⟨from_, to_⟩ ∈ dependencyEdges
    ((∅ : BTreeMap String _).insert "app" ((∅ : BTreeSet String).insert "lib")) (((∅ : BTreeSet String).insert "app").insert "lib"))
    "app" "lib" := by
  let needs (from_ to_ : String) : Prop := from_ = "app" ∧ to_ = "lib"
  have : IsTrans String needs := ⟨fun _ _ _ first second => ⟨first.1, second.2⟩⟩
  have closures : Closures ((∅ : BTreeMap String _).insert "app" ((∅ : BTreeSet String).insert "lib")) needs := by
    refine ⟨?_, fun derivation closure found input => ?_⟩ <;> rw [transGen_eq_self]
    · rintro derivation ⟨rfl, same⟩
      simp at same
    · rw [BTreeMap.getElem?_insert] at found
      split_ifs at found with same
      · cases found
        simp [needs, ← same, eq_comm (a := input)]
      · simp at found
  exact ((dependencyEdges_reduce closures _ ∅).1 "app" (by simp) (by simp) "lib").mpr ⟨by simp, .single ⟨rfl, rfl⟩⟩

end Index.NixWebMonitor
