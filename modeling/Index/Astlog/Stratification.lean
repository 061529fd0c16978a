import Index.Astlog.Strata
import Index.Lib.Walk

/-! # What can be stratified

The references between the relations are a graph in which a negation weighs one.  After as many passes as there are relations,
the level of a relation that depends on no negation cycle is the weight of its heaviest walk and does not grow any more. -/

namespace Index.Astlog

open Index.Lib Program List

/-! ## The graph of the references -/

def referenceGraph (edges : List Edge) : Weighted Edge String :=
  { edges, source := Edge.head, target := Edge.reference, weight := Edge.step }

/-- The relation depends on itself through references with a negation among them. -/
def Program.NegationCycle (program : Program) (name : String) : Prop :=
  ∃ path, (referenceGraph program.edges).IsWalk name path name ∧ ∃ edge ∈ path, edge.negative = true

theorem Program.negationCycle_iff {program : Program} {name : String} :
    program.NegationCycle name ↔ (referenceGraph program.edges).HasLoop name := by
  refine exists_congr fun path => and_congr_right fun _ => ?_
  rw [Weighted.total, List.sum_pos_iff_exists_pos_nat]
  simp [referenceGraph, Edge.step, Nat.pos_iff_ne_zero]

/-- Levels that respect the references lower along every walk by what it weighs. -/
theorem Respects.walk {edges : List Edge} {rank : String → Nat} (respects : Respects edges rank) {start stop : String}
    {path : List Edge} (walk : (referenceGraph edges).IsWalk start path stop) :
    rank stop + (referenceGraph edges).total path ≤ rank start := by
  induction path generalizing start with
  | nil =>
    obtain rfl : start = stop := walk
    simp [Weighted.total]
  | cons edge path ih =>
    obtain ⟨member, rfl, rest⟩ := walk
    have below := ih rest
    have step := respects edge member
    simp only [Weighted.total, map_cons, sum_cons] at below ⊢
    simp only [referenceGraph] at below ⊢
    omega

/-! ## Passes -/

section Passes

variable {edges : List Edge} {level : Levels} {next : Levels × Option String}

/-- Every level is the weight of a walk. -/
def Attained (edges : List Edge) (level : Levels) : Prop :=
  ∀ name, ∃ path stop, (referenceGraph edges).IsWalk name path stop ∧ (referenceGraph edges).total path = level.rank name

/-- No walk with so many edges weighs more than the level of its start. -/
def Covers (edges : List Edge) (count : Nat) (level : Levels) : Prop :=
  ∀ name path stop, (referenceGraph edges).IsWalk name path stop → path.length ≤ count →
    (referenceGraph edges).total path ≤ level.rank name

/-- How a pass over the edges raises the levels. -/
structure Raises (edges : List Edge) (level : Levels) (next : Levels × Option String) : Prop where
  le : ∀ name, level.rank name ≤ next.1.rank name
  covered : ∀ edge ∈ edges, level.rank edge.reference + edge.step ≤ next.1.rank edge.head
  grew : ∀ name, next.2 = some name → level.rank name < next.1.rank name

theorem relaxPass_raises (ran : relaxPass edges level = .ok next) : Raises edges level next := by
  refine foldlM_invariant (Raises · level ·) ran ⟨fun _ => Nat.le_refl _, by simp, by simp⟩ ?_
  intro done edge state next member before relaxed
  have reference := before.le edge.reference
  rcases (relaxEdge_cases relaxed).2 with ⟨rfl, respected⟩ | ⟨raised, rfl⟩
  · exact ⟨before.le, forall_mem_append.mpr ⟨before.covered, forall_mem_singleton.mpr (by omega)⟩, before.grew⟩
  · have le (name : String) : state.1.rank name ≤
        Levels.rank (state.1.insert edge.head (state.1.rank edge.reference + edge.step)) name := by
      rw [Levels.rank_insert]
      split
      next same => exact same ▸ raised.le
      next => exact Nat.le_refl _
    refine ⟨fun name => (before.le name).trans (le name), forall_mem_append.mpr
      ⟨fun other earlier => (before.covered other earlier).trans (le other.head), forall_mem_singleton.mpr ?_⟩, fun name here => ?_⟩
    · rw [Levels.rank_insert, if_pos rfl]
      omega
    · obtain rfl : edge.head = name := by simpa using here
      have head := before.le edge.head
      rw [Levels.rank_insert, if_pos rfl]
      omega

theorem relaxPass_attained (attained : Attained edges level) (ran : relaxPass edges level = .ok next) : Attained edges next.1 := by
  refine foldlM_invariant (fun _ state => Attained edges state.1) ran attained ?_
  intro done edge state next member before relaxed name
  rcases (relaxEdge_cases relaxed).2 with ⟨rfl, -⟩ | ⟨-, rfl⟩
  · exact before name
  · rw [Levels.rank_insert]
    split
    next same =>
      subst same
      obtain ⟨path, stop, walk, weight⟩ := before edge.reference
      refine ⟨edge :: path, stop, ⟨member, rfl, walk⟩, ?_⟩
      rw [← weight, Nat.add_comm]
      simp [Weighted.total, referenceGraph]
    next => exact before name

/-- A pass covers the walks with one edge more. -/
theorem Raises.covers {count : Nat} (raises : Raises edges level next) (covers : Covers edges count level) :
    Covers edges (count + 1) next.1 := by
  intro name path stop walk short
  cases path with
  | nil => simp [Weighted.total]
  | cons edge path =>
    obtain ⟨member, rfl, rest⟩ := walk
    have tail := covers edge.reference path stop rest (by simpa using short)
    have covered := raises.covered edge member
    simp only [Weighted.total, map_cons, sum_cons] at tail ⊢
    simp only [referenceGraph] at tail ⊢
    omega

/-- A relation that still grows when all walks without repetitions are covered depends on a loop. -/
theorem leads_to_loop {nodes : List String} (inside : ∀ edge ∈ edges, edge.head ∈ nodes) {count : Nat} (covers : Covers edges count level)
    (attained : Attained edges level) (enough : nodes.length ≤ count) (ran : relaxPass edges level = .ok next) {name : String}
    (grew : next.2 = some name) :
    ∃ path node, (referenceGraph edges).IsWalk name path node ∧ (referenceGraph edges).HasLoop node := by
  by_contra flat
  push Not at flat
  obtain ⟨path, stop, walk, weight⟩ := relaxPass_attained attained ran name
  obtain ⟨short, shortWalk, length, same⟩ := walk.shorten inside flat
  have covered := covers name short stop shortWalk (length.trans enough)
  have higher := (relaxPass_raises ran).grew name grew
  omega

/-- A pass over edges between known relations does not fail. -/
theorem relaxPass_ensures {faults : Fault Error → Prop} (known : ∀ edge ∈ edges, edge.reference ∈ level ∧ edge.head ∈ level) :
    Ensures faults (fun next : Levels × Option String => ∀ name, name ∈ next.1 ↔ name ∈ level) (relaxPass edges level) := by
  refine ensures_foldlM (fun _ (state : Levels × Option String) => ∀ name, name ∈ state.1 ↔ name ∈ level) (fun _ => Iff.rfl) ?_
  intro done edge left state whole keys
  obtain ⟨reference, head⟩ := known edge (by simp [whole])
  rw [← keys, BTreeMap.mem_iff] at reference head
  obtain ⟨target, reference⟩ := reference
  obtain ⟨current, head⟩ := head
  refine ensures_orPanic_bind reference (ensures_orPanic_bind head ?_)
  have present : edge.head ∈ state.1 := BTreeMap.mem_iff.mpr ⟨_, head⟩
  split
  next =>
    intro name
    rw [← keys name, Std.ExtTreeMap.mem_insert, Std.LawfulEqOrd.compare_eq_iff_eq]
    exact ⟨fun inserted => inserted.elim (fun same => same ▸ present) id, .inr⟩
  next => exact keys

end Passes

/-! ## The loop -/

section Loop

variable {program : Program} {level : Levels} {left count : Nat} {fault : Fault Error}

/-- The error of the loop is a panic or names a relation that depends on a negation cycle. -/
def Program.Reported (program : Program) (fault : Fault Error) : Prop :=
  fault = .panicked ∨ ∃ name, fault = .raised (program.unstratifiable name) ∧
    ∃ path node, (referenceGraph program.edges).IsWalk name path node ∧ program.NegationCycle node

theorem relaxPass_panicked {edges : List Edge} (failed : relaxPass edges level = .error fault) : fault = .panicked := by
  have ensured : Ensures (fun fault : Fault Error => fault = .panicked) (fun _ : Levels × Option String => True) (relaxPass edges level) := by
    refine ensures_foldlM (fun _ _ => True) trivial fun done edge left state _ _ => ?_
    unfold relaxEdge
    cases state.1[edge.reference]? with
    | none => rfl
    | some target =>
      cases state.1[edge.head]? with
      | none => rfl
      | some current =>
        refine ensures_orPanic_bind rfl (ensures_orPanic_bind rfl ?_)
        split <;> trivial
  exact ensured.of_error failed

theorem Program.relax_reported {nodes : List String} (inside : ∀ edge ∈ program.edges, edge.head ∈ nodes)
    (covers : Covers program.edges count level) (attained : Attained program.edges level) (enough : nodes.length ≤ count + left) :
    Ensures program.Reported (fun _ => True) (program.relax left level) := by
  have pass (level : Levels) : Ensures program.Reported (relaxPass program.edges level = .ok ·) (relaxPass program.edges level) := by
    cases ran : relaxPass program.edges level with
    | ok next => rfl
    | error fault => exact .inl (relaxPass_panicked ran)
  induction left generalizing level count with
  | zero =>
    refine (pass level).bind fun ⟨next, grew⟩ ran => ?_
    cases grew with
    | none => trivial
    | some name =>
      obtain ⟨path, node, walk, loop⟩ := leads_to_loop inside covers attained enough ran rfl
      exact .inr ⟨name, rfl, path, node, walk, negationCycle_iff.mpr loop⟩
  | succ left ih =>
    refine (pass level).bind fun ⟨next, grew⟩ ran => ?_
    cases grew with
    | none => trivial
    | some name => exact ih ((relaxPass_raises ran).covers covers) (relaxPass_attained attained ran) (by omega)

theorem Program.relax_not_panicked (known : ∀ edge ∈ program.edges, edge.reference ∈ level ∧ edge.head ∈ level) :
    Ensures (· ≠ .panicked) (fun _ => True) (program.relax left level) := by
  induction left generalizing level with
  | zero =>
    refine (relaxPass_ensures known).bind fun ⟨next, grew⟩ _ => ?_
    cases grew with
    | none => trivial
    | some name => exact fun panicked : Fault.raised _ = _ => by cases panicked
  | succ left ih =>
    refine (relaxPass_ensures known).bind fun ⟨next, grew⟩ keys => ?_
    cases grew with
    | none => trivial
    | some name =>
      refine ih fun edge member => ?_
      rw [keys, keys]
      exact known edge member

theorem Program.head_mem_initialLevels {edge : Edge} (member : edge ∈ program.edges) : edge.head ∈ program.initialLevels := by
  obtain ⟨rule, ruleMember, inside⟩ := mem_flatMap.mp member
  obtain ⟨atom, -, isEdge⟩ := mem_filterMap.mp inside
  refine mem_initialLevels.mpr ⟨rule, ruleMember, ?_⟩
  cases atom with
  | matching atom => cases isEdge
  | app atom =>
    simp only [BodyAtom.edge?] at isEdge
    split at isEdge
    next => exact congrArg Edge.head (Option.some.inj isEdge)
    next => cases isEdge
  | negation atom => exact congrArg Edge.head (Option.some.inj isEdge)

theorem Program.levels_reported (failed : program.levels = .error fault) : program.Reported fault := by
  refine (@relax_reported program program.initialLevels _ 0 program.initialLevels.keys ?_ ?_ ?_ ?_).of_error failed
  · exact fun edge member => Std.ExtTreeMap.mem_keys.mpr (head_mem_initialLevels member)
  · intro name path stop walk short
    obtain rfl : path = [] := length_eq_zero_iff.mp (Nat.le_zero.mp short)
    simp [Weighted.total]
  · exact fun name => ⟨[], name, rfl, by simp [Weighted.total, rank_initialLevels]⟩
  · rw [Std.ExtTreeMap.length_keys]
    omega

end Loop

/-! ## Strata -/

section Strata

variable {program : Program} {level : Levels} {strata : List (List Nat)}

/-- Levels have their strata. -/
theorem Program.strata_of_levels (computed : program.levels = .ok level) : ∃ strata, program.strata = .ok strata := by
  have least := levels_least computed
  have ensured : Ensures (fun _ => False) (fun state : List (List Nat) => state.length = level.values.max?.getD 0 + 1)
      (program.rules.zipIdx.foldlM (pushRule level) (List.replicate (level.values.max?.getD 0 + 1) [])) := by
    refine ensures_foldlM (fun _ (state : List (List Nat)) => state.length = level.values.max?.getD 0 + 1) (by simp) ?_
    intro done entry left state whole length
    have member : entry.1 ∈ program.rules := fst_mem_of_mem_zipIdx (by rw [whole]; simp)
    have known := least.lookup member
    refine ensures_orPanic_bind known ?_
    have value : level.rank entry.1.name ∈ level.values := BTreeMap.mem_values.mpr ⟨_, known⟩
    have bounded : level.rank entry.1.name ≤ level.values.max?.getD 0 := le_max?_getD_of_mem value
    rw [if_pos (by omega)]
    exact (length_modify ..).trans length
  cases pushed : program.rules.zipIdx.foldlM (pushRule level) (List.replicate (level.values.max?.getD 0 + 1) []) with
  | ok strata => exact ⟨strata, bind_eq_ok.mpr ⟨level, computed, pushed⟩⟩
  | error fault => exact (ensured.of_error pushed).elim

theorem Program.strata_error {fault : Fault Error} (failed : program.strata = .error fault) : program.levels = .error fault := by
  cases computed : program.levels with
  | ok level =>
    obtain ⟨strata, layered⟩ := strata_of_levels computed
    rw [layered] at failed
    cases failed
  | error other =>
    rw [Program.strata, computed] at failed
    exact congrArg _ (Except.error.inj failed)

/-- The rule is in a stratum. -/
def InStratum (strata : List (List Nat)) (height index : Nat) : Prop := ∃ stratum, strata[height]? = some stratum ∧ index ∈ stratum

/-- A rule is in the stratum of the level of its head. -/
theorem Program.inStratum_iff {rank : String → Nat} (layered : strata = (List.range strata.length).map (program.stratumAt rank))
    (bounded : ∀ rule ∈ program.rules, rank rule.name < strata.length) {height index : Nat} :
    InStratum strata height index ↔ ∃ rule, program.rules[index]? = some rule ∧ rank rule.name = height := by
  constructor
  · rintro ⟨stratum, found, member⟩
    rw [layered, getElem?_map] at found
    obtain ⟨same, position, rfl⟩ := Option.map_eq_some_iff.mp found
    obtain ⟨inside, rfl⟩ := List.getElem?_eq_some_iff.mp position
    rw [getElem_range] at member
    exact mem_stratumAt.mp member
  · rintro ⟨rule, found, rfl⟩
    refine ⟨program.stratumAt rank (rank rule.name), ?_, mem_stratumAt.mpr ⟨rule, found, rfl⟩⟩
    rw [layered, getElem?_map, getElem?_range (bounded rule (mem_of_getElem? found))]
    rfl

theorem Program.strata_flatten {rank : String → Nat} (layered : strata = (List.range strata.length).map (program.stratumAt rank))
    (bounded : ∀ rule ∈ program.rules, rank rule.name < strata.length) : strata.flatten.Perm (List.range program.rules.length) := by
  have same : strata = (layers (fun entry : Rule × Nat => rank entry.1.name) strata.length program.rules.zipIdx).map (·.map Prod.snd) := by
    rw [layers, map_map]
    exact layered
  have perm : (layers (fun entry : Rule × Nat => rank entry.1.name) strata.length program.rules.zipIdx).flatten.Perm _ :=
    layers_flatten_perm fun entry member => bounded entry.1 (fst_mem_of_mem_zipIdx member)
  rw [same, ← map_flatten]
  refine (perm.map Prod.snd).trans ?_
  rw [zipIdx_map_snd, range_eq_range']

/-- Rules whose references are defined are stratified if and only if no relation depends on itself through a negation.  Then the
strata hold every rule once, a relation that a rule uses is defined no later and one that it negates is defined earlier. -/
theorem Program.strata_spec (program : Program) (defined : ∀ edge ∈ program.edges, ∃ rule ∈ program.rules, rule.name = edge.reference) :
    ((∃ strata, program.strata = .ok strata) ↔ ∀ name, ¬ program.NegationCycle name) ∧
    ∀ strata, program.strata = .ok strata →
      strata.flatten.Perm (List.range program.rules.length) ∧
      ∀ height index rule, InStratum strata height index → program.rules[index]? = some rule →
        ∀ otherHeight other otherRule, InStratum strata otherHeight other → program.rules[other]? = some otherRule →
          (∀ app, BodyAtom.app app ∈ rule.body → builtinArity app.name = none → otherRule.name = app.name → otherHeight ≤ height) ∧
          (∀ neg, BodyAtom.negation neg ∈ rule.body → otherRule.name = neg.name → otherHeight < height) := by
  refine ⟨⟨?_, fun acyclic => ?_⟩, fun strata computed => ?_⟩
  · rintro ⟨strata, computed⟩ name cycle
    obtain ⟨level, -, least, -⟩ := strata_eq computed
    obtain ⟨path, walk, heavy⟩ := negationCycle_iff.mp cycle
    have lower := least.respects.walk walk
    omega
  · cases computed : program.strata with
    | ok strata => exact ⟨strata, rfl⟩
    | error fault =>
      have failed := strata_error computed
      rcases levels_reported failed with rfl | ⟨name, -, path, node, -, cycle⟩
      · refine absurd rfl ((relax_not_panicked fun edge member => ⟨?_, head_mem_initialLevels member⟩).of_error failed)
        exact mem_initialLevels.mpr (defined edge member)
      · exact absurd cycle (acyclic node)
  · obtain ⟨level, -, least, layered, bounded⟩ := strata_eq computed
    refine ⟨strata_flatten layered bounded, fun height index rule inside found otherHeight other otherRule otherInside otherFound => ?_⟩
    obtain ⟨same, sameFound, rfl⟩ := (inStratum_iff layered bounded).mp inside
    obtain ⟨otherSame, otherSameFound, rfl⟩ := (inStratum_iff layered bounded).mp otherInside
    rw [found, Option.some.injEq] at sameFound
    rw [otherFound, Option.some.injEq] at otherSameFound
    subst sameFound otherSameFound
    have respects {atom : BodyAtom} {edge : Edge} (member : atom ∈ rule.body) (isEdge : BodyAtom.edge? rule.name atom = some edge) :=
      least.respects edge (mem_flatMap.mpr ⟨rule, mem_of_getElem? found, mem_filterMap.mpr ⟨atom, member, isEdge⟩⟩)
    refine ⟨fun app member relational named => ?_, fun neg member named => ?_⟩
    · have isEdge : BodyAtom.edge? rule.name (.app app) = some ⟨rule.name, app.name, false⟩ := by
        rw [BodyAtom.edge?, relational]
        rfl
      have step := respects member isEdge
      rw [named]
      exact Nat.le_of_add_right_le step
    · have step := respects member rfl
      rw [named]
      exact step

/-- Reachability is recursive, and what does not reach itself is found by negation. -/
def looseProgram : Program where
  rules := [
    ⟨"loose", ["x"], [.matching ⟨.nix, "nodes", 1⟩, .negation ⟨"reach", [.var "x", .var "x"], 1⟩], 1⟩,
    ⟨"reach", ["x", "y"], [.matching ⟨.nix, "edges", 2⟩], 2⟩,
    ⟨"reach", ["x", "z"], [.app ⟨"reach", [.var "x", .var "y"], 3⟩, .app ⟨"reach", [.var "y", .var "z"], 3⟩], 3⟩]
  rewrites := []
  lints := []

theorem looseProgram_strata : looseProgram.strata = .ok [[1, 2], [0]] ∧ ∀ name, ¬ looseProgram.NegationCycle name := by
  have computed : looseProgram.strata = .ok [[1, 2], [0]] := by decide +kernel
  exact ⟨computed, (looseProgram.strata_spec (by decide +kernel)).1.mp ⟨_, computed⟩⟩

/-! ## The relation that is reported -/

/-- The relation that is reported depends on a negation cycle; it lies on one where every relation that depends on one does. -/
theorem Program.unstratifiable_on_cycle (program : Program)
    (confined : ∀ start path node, (referenceGraph program.edges).IsWalk start path node → program.NegationCycle node →
      program.NegationCycle start)
    (name : String) (line : Nat) (failed : program.strata = .error (.raised (.unstratifiableProgram name line))) :
    program.NegationCycle name := by
  rcases levels_reported (strata_error failed) with panicked | ⟨reported, same, path, node, walk, cycle⟩
  · cases panicked
  · have named : name = reported := by
      injection same with same
      injection same
    subst named
    exact confined name path node walk cycle

/-- A relation that negates itself. -/
def liarRule : Rule := ⟨"liar", [], [.negation ⟨"liar", [], 1⟩], 1⟩

theorem liar_on_cycle : (⟨[liarRule], [], []⟩ : Program).strata = .error (.raised (.unstratifiableProgram "liar" 1)) ∧
    (⟨[liarRule], [], []⟩ : Program).NegationCycle "liar" := by
  have failed : (⟨[liarRule], [], []⟩ : Program).strata = .error (.raised (.unstratifiableProgram "liar" 1)) := by decide +kernel
  refine ⟨failed, unstratifiable_on_cycle _ (fun start path node walk cycle => ?_) "liar" 1 failed⟩
  cases path with
  | nil => exact walk ▸ cycle
  | cons edge path =>
    obtain ⟨member, rfl, -⟩ := walk
    obtain rfl : edge = ⟨"liar", "liar", true⟩ := mem_singleton.mp member
    exact ⟨[⟨"liar", "liar", true⟩], ⟨member, rfl, rfl⟩, _, mem_singleton_self _, rfl⟩

/-- A relation that uses one that negates itself is reported, though nothing depends on it. -/
theorem downstream_reported :
    (⟨[liarRule, ⟨"quote", [], [.app ⟨"liar", [], 2⟩], 2⟩], [], []⟩ : Program).strata =
        .error (.raised (.unstratifiableProgram "quote" 2)) ∧
      ¬ (⟨[liarRule, ⟨"quote", [], [.app ⟨"liar", [], 2⟩], 2⟩], [], []⟩ : Program).NegationCycle "quote" := by
  refine ⟨by decide +kernel, ?_⟩
  rintro ⟨path, walk, edge, inside, -⟩
  obtain ⟨before, last, rfl⟩ := eq_nil_or_concat path |>.resolve_left (ne_nil_of_mem inside)
  -- No reference leads to the relation.
  rw [concat_eq_append, Weighted.isWalk_append] at walk
  obtain ⟨middle, -, member, -, target⟩ := walk
  have unused : ∀ edge ∈ (⟨[liarRule, ⟨"quote", [], [.app ⟨"liar", [], 2⟩], 2⟩], [], []⟩ : Program).edges, edge.reference ≠ "quote" := by
    decide +kernel
  exact unused last member target

end Strata

end Index.Astlog
