import Index.Lib.Dependency
import Index.Lib.Outcome
import Mathlib.Logic.Function.Basic

/-! # Specs of the DAG runner

A spec names the nodes of a graph, tasks and services, with the nodes each of them waits for.  `validate` refuses what
would go wrong in silence, cycles among it, and `topological_order` says in which order the nodes are spawned. -/

namespace Index.DagRunner

open Index.Lib Function List

inductive Kind
  | task
  | service
  deriving DecidableEq, Repr

inductive StdioMode
  | capture
  | prefixed
  | inherit
  deriving DecidableEq, Repr

/-- How a service shows that it is up.  Only the kind of the probe is looked at before a run. -/
inductive ReadyWhen
  | tcp
  | logLine
  | http
  deriving DecidableEq, Repr

structure NodeSpec where
  command : List String
  dependsOn : List String := []
  timeoutSecs : Option Nat := none
  kind : Kind := .task
  readyWhen : Option ReadyWhen := none
  stdio : StdioMode := .capture
  lifelineFd : Option Int := none
  deriving DecidableEq, Repr

def NodeSpec.isService (node : NodeSpec) : Bool := node.kind == .service

/-- The nodes by name, a map that is only ever walked in the order of the names. -/
abbrev Spec := BTreeMap String NodeSpec

namespace Spec

variable {spec : Spec}

def dependsOn (spec : Spec) (name : String) : List String :=
  match spec[name]? with
  | some node => node.dependsOn
  | none => []

/-- A node waits for another. -/
def Needs (spec : Spec) (name dep : String) : Prop := dep ∈ spec.dependsOn name

/-- A node waits for another, at first hand or through others. -/
def DependsOn (spec : Spec) : String → String → Prop := Relation.TransGen spec.Needs

variable {node : NodeSpec}

theorem dependsOn_eq {name : String} (known : spec[name]? = some node) : spec.dependsOn name = node.dependsOn := by
  simp [dependsOn, known]

theorem needs_of_getElem? {name dep : String} {index : Nat} (known : spec[name]? = some node)
    (reads : node.dependsOn[index]? = some dep) : spec.Needs name dep := by
  rw [Needs, dependsOn_eq known]
  exact mem_of_getElem? reads

end Spec

/-! ## Validation -/

inductive Invalid
  | emptyCommand (name : String)
  | readyWhenOfTask (name : String)
  | serviceWithoutReadyWhen (name : String)
  | timeoutOfService (name : String)
  | logLineOfInherited (name : String)
  | lifelineFd (name : String) (fd : Int)
  | unknownDependency (name dep : String)
  | cycle (path : List String)
  /-- The walk for cycles is bounded by the number of nodes, which it never reaches. -/
  | outOfFuel
  deriving DecidableEq, Repr

def validateNode (name : String) (node : NodeSpec) : Except Invalid Unit :=
  if node.command.isEmpty then .error (.emptyCommand name)
  else match node.kind, node.readyWhen with
    | .task, some _ => .error (.readyWhenOfTask name)
    | .service, none => .error (.serviceWithoutReadyWhen name)
    | _, _ =>
      if node.isService && node.timeoutSecs.isSome then .error (.timeoutOfService name)
      else if node.stdio == .inherit && node.readyWhen == some .logLine then .error (.logLineOfInherited name)
      else match node.lifelineFd with
        | some fd => if fd < 3 then .error (.lifelineFd name fd) else .ok ()
        | none => .ok ()

inductive CycleColor
  | gray
  | black
  deriving DecidableEq, Repr

abbrev Colors := String → Option CycleColor

def visitCycle (spec : Spec) : Nat → String → Colors → List String → Except Invalid Colors
  | 0, _, _, _ => .error .outOfFuel
  | fuel + 1, name, color, stack =>
    match color name with
    | some .gray => .error (.cycle (stack ++ [name]))
    | some .black => .ok color
    | none => do
      let color ← (spec.dependsOn name).foldlM (fun color dep => visitCycle spec fuel dep color (stack ++ [name]))
        (update color name (some .gray))
      return update color name (some .black)

def detectCycle (spec : Spec) : Except Invalid Unit := do
  let _ ← spec.keys.foldlM (fun color name => visitCycle spec (spec.size + 1) name color []) (fun _ => none)

def validate (spec : Spec) : Except Invalid Unit := do
  spec.toList.forM fun (name, node) => do
    validateNode name node
    node.dependsOn.forM fun dep =>
      if spec.contains dep then pure () else throw (.unknownDependency name dep)
  detectCycle spec

/-! ## The order of the nodes -/

/-- The names visited so far, and the order so far. -/
structure Walk where
  visited : String → Bool := fun _ => false
  order : List String := []

def Walk.mark (walk : Walk) (name : String) : Walk := { walk with visited := update walk.visited name true }

def Walk.push (walk : Walk) (name : String) : Walk := { walk with order := walk.order ++ [name] }

def visitTopo (spec : Spec) : Nat → String → Walk → Walk
  | 0, _, walk => walk
  | fuel + 1, name, walk =>
    if walk.visited name then walk
    else ((spec.dependsOn name).foldl (fun walk dep => visitTopo spec fuel dep walk) (walk.mark name)).push name

def topologicalOrder (spec : Spec) : List String :=
  (spec.keys.foldl (fun walk name => visitTopo spec (spec.size + 1) name walk) {}).order

/-! ## What validation gives -/

/-- What a run relies on: the graph is closed and has no cycle, and a service has a probe. -/
structure Valid (spec : Spec) : Prop where
  known : ∀ name dep, spec.Needs name dep → dep ∈ spec
  grounded : ∀ name, Acc (fun dep name => spec.Needs name dep) name
  probed : ∀ (name : String) (node : NodeSpec), spec[name]? = some node → node.isService = true → node.readyWhen.isSome = true

section Cycle

variable {spec : Spec} {color next : Colors}

/-- Black nodes reach no cycle. -/
def Grounded (spec : Spec) (color : Colors) : Prop :=
  ∀ name, color name = some .black → Acc (fun dep name => spec.Needs name dep) name

variable {fuel : Nat} {name : String} {stack : List String}

theorem visitCycle_grounded (grounded : Grounded spec color) (visited : visitCycle spec fuel name color stack = .ok next) :
    Grounded spec next ∧ next name = some .black ∧ ∀ other, color other = some .black → next other = some .black := by
  induction fuel generalizing name color stack next with
  | zero => simp [visitCycle] at visited
  | succ fuel ih =>
    rw [visitCycle] at visited
    split at visited
    next => cases visited
    next black =>
      obtain rfl := Except.ok.inj visited
      exact ⟨grounded, black, fun _ same => same⟩
    next fresh =>
      obtain ⟨final, looped, done⟩ := bind_eq_ok.mp visited
      obtain rfl := Except.ok.inj done
      have apart : ∀ other, color other = some .black → other ≠ name := by
        rintro _ black rfl
        exact absurd (fresh.symm.trans black) nofun
      -- The dependencies visited so far are black, and so is what was black before.
      obtain ⟨grounded', deps, kept⟩ := foldlM_invariant
        (fun visited (state : Colors) => Grounded spec state ∧ (∀ dep ∈ visited, state dep = some .black) ∧
          ∀ other, color other = some .black → state other = some .black) looped
        (by
          refine ⟨fun other black => grounded other ?_, by simp, fun other black => ?_⟩
          · by_cases same : other = name
            · simp [same] at black
            · rwa [update_of_ne same] at black
          · rwa [update_of_ne (apart other black)])
        (by
          rintro visited dep state state' - ⟨grounded, deps, kept⟩ stepped
          obtain ⟨grounded', black, onward⟩ := ih grounded stepped
          exact ⟨grounded', forall_mem_append.mpr ⟨fun other old => onward other (deps other old), forall_mem_singleton.mpr black⟩,
            fun other before => onward other (kept other before)⟩)
      have here : Acc (fun dep name => spec.Needs name dep) name := Acc.intro _ fun dep needed => grounded' dep (deps dep needed)
      refine ⟨fun other black => ?_, update_self .., fun other before => ?_⟩
      · by_cases same : other = name
        · exact same ▸ here
        · exact grounded' other (by rwa [update_of_ne same] at black)
      · rw [update_of_ne (apart other before)]
        exact kept other before

/-- The nodes that a walk has not come to. -/
def unseen (spec : Spec) (seen : String → Bool) : List String := spec.keys.filter fun name => !seen name

theorem unseen_lt {seen later : String → Bool} (known : name ∈ spec) (fresh : seen name = false) (here : later name = true)
    (kept : ∀ other, seen other = true → later other = true) : (unseen spec later).length < (unseen spec seen).length := by
  have sublist : (unseen spec later).Sublist ((unseen spec seen).filter (· ≠ name)) := by
    rw [unseen, unseen, filter_filter]
    refine monotone_filter_right _ fun other left => ?_
    have unseen : seen other ≠ true := fun seen => by simp [kept other seen] at left
    have apart : other ≠ name := by
      rintro rfl
      simp [here] at left
    simp [unseen, apart]
  refine sublist.length_le.trans_lt (length_filter_lt_length_iff_exists.mpr ⟨name, ?_, by simp⟩)
  simp [unseen, fresh, known]

theorem unseen_le (spec : Spec) (seen : String → Bool) : (unseen spec seen).length ≤ spec.size := by
  rw [← Std.ExtTreeMap.length_keys]
  exact length_filter_le _ _

/-- A path that ends in a closed walk along the dependencies. -/
def EndsInCycle (spec : Spec) (path : List String) : Prop :=
  ∃ before name middle, path = before ++ name :: (middle ++ [name]) ∧ (name :: (middle ++ [name])).IsChain spec.Needs

theorem EndsInCycle.dependsOn {path : List String} (ends : EndsInCycle spec path) : ∃ name, spec.DependsOn name name := by
  obtain ⟨_, name, middle, -, chain⟩ := ends
  have ahead := isChain_iff_pairwise.mp (chain.imp fun _ _ => Relation.TransGen.single)
  exact ⟨name, (pairwise_cons.mp ahead).1 name (by simp)⟩

section

variable (closed : ∀ name dep, spec.Needs name dep → dep ∈ spec)
include closed

/-- The walk for cycles ends before its bound, and what it reports is a cycle: the gray nodes are those on the stack. -/
theorem visitCycle_ends (known : name ∈ spec) (enough : (unseen spec fun name => (color name).isSome).length < fuel)
    (gray : ∀ other, color other = some .gray ↔ other ∈ stack) (chain : (stack ++ [name]).IsChain spec.Needs) :
    Ensures (fun error => ∃ path, error = .cycle path ∧ EndsInCycle spec path)
      (fun next => (∀ other, (color other).isSome = true → (next other).isSome = true) ∧
        ∀ other, next other = some .gray ↔ other ∈ stack)
      (visitCycle spec fuel name color stack) := by
  induction fuel generalizing name color stack with
  | zero => omega
  | succ fuel ih =>
    rw [visitCycle]
    split
    next onStack =>
      obtain ⟨before, middle, rfl⟩ := append_of_mem ((gray name).mp onStack)
      rw [append_assoc, cons_append] at chain ⊢
      exact ⟨_, rfl, before, name, middle, rfl, chain.right_of_append⟩
    next => exact ⟨fun _ same => same, gray⟩
    next fresh =>
      have marked : ∀ other, (color other).isSome = true → (update color name (some .gray) other).isSome = true := by
        intro other seen
        by_cases same : other = name <;> simp_all
      have absent : name ∉ stack := fun member => by simp [(gray name).mpr member] at fresh
      refine Ensures.bind (ensures_foldlM (fun _ state => (∀ other,
        (update color name (some .gray) other).isSome = true → (state other).isSome = true) ∧
        ∀ other, state other = some .gray ↔ other ∈ stack ++ [name]) ⟨fun _ same => same, fun other => ?_⟩ ?_) ?_
      · by_cases same : other = name <;> simp [same, gray]
      · intro done dep left state split ⟨kept, gray'⟩
        have needed : spec.Needs name dep := by simp [Spec.Needs, split]
        have shorter : (unseen spec fun name => (state name).isSome).length < (unseen spec fun name => (color name).isSome).length :=
          unseen_lt known (by simp [fresh]) (kept name (by simp)) fun other seen => kept other (marked other seen)
        have longer : ((stack ++ [name]) ++ [dep]).IsChain spec.Needs :=
          isChain_append.mpr ⟨chain, isChain_singleton _, by simpa using needed⟩
        exact (ih (closed name dep needed) (by omega) gray' longer).imp fun state' onward =>
          ⟨fun other seen => onward.1 other (kept other seen), onward.2⟩
      · intro state ⟨kept, gray'⟩
        refine ⟨fun other seen => ?_, fun other => ?_⟩
        · by_cases same : other = name
          · simp [same]
          · simpa [same] using kept other (marked other seen)
        · by_cases same : other = name
          · simp [same, absent]
          · simp [same, gray']

theorem detectCycle_ends :
    Ensures (fun error => ∃ path, error = .cycle path ∧ EndsInCycle spec path) (fun _ => True) (detectCycle spec) := by
  refine Ensures.bind (ensures_foldlM (fun _ (state : Colors) => ∀ other, state other ≠ some .gray) (by simp) ?_) fun _ _ => trivial
  intro done name left state split white
  have known : name ∈ spec := Std.ExtTreeMap.mem_keys.mp (by simp [split])
  exact (visitCycle_ends closed known (Nat.lt_succ_of_le (unseen_le ..)) (by simpa using white)
    (isChain_singleton _)).imp fun _ ends other => by simpa using ends.2 other

theorem grounded_of_detectCycle (detected : detectCycle spec = .ok ()) (name : String) :
    Acc (fun dep name => spec.Needs name dep) name := by
  obtain ⟨color, looped, -⟩ := bind_eq_ok.mp detected
  obtain ⟨grounded, black⟩ := foldlM_invariant
    (fun visited (state : Colors) => Grounded spec state ∧ ∀ name ∈ visited, state name = some .black) looped
    ⟨nofun, by simp⟩
    (by
      rintro visited name state state' - ⟨grounded, black⟩ stepped
      obtain ⟨grounded', here, onward⟩ := visitCycle_grounded grounded stepped
      exact ⟨grounded', forall_mem_append.mpr ⟨fun other old => onward other (black other old), forall_mem_singleton.mpr here⟩⟩)
  exact Acc.intro _ fun dep needed => grounded dep (black dep (Std.ExtTreeMap.mem_keys.mpr (closed name dep needed)))

end

end Cycle

theorem readyWhen_of_validateNode {name : String} {node : NodeSpec} (checked : validateNode name node = .ok ())
    (service : node.isService = true) : node.readyWhen.isSome = true := by
  have kind : node.kind = .service := eq_of_beq service
  cases ready : node.readyWhen with
  | some _ => rfl
  | none =>
    rw [validateNode, kind, ready] at checked
    split at checked <;> cases checked

variable {spec : Spec}

theorem valid_of_validate (validated : validate spec = .ok ()) : Valid spec := by
  obtain ⟨_, nodes, acyclic⟩ := bind_eq_ok.mp validated
  have each : ∀ (name : String) (node : NodeSpec), spec[name]? = some node →
      validateNode name node = .ok () ∧ ∀ dep ∈ node.dependsOn, dep ∈ spec := by
    intro name node found
    have checked := forM_eq_ok.mp nodes (name, node) (Std.ExtTreeMap.mem_toList_iff_getElem?_eq_some.mpr found)
    obtain ⟨_, valid, deps⟩ := bind_eq_ok.mp checked
    refine ⟨valid, fun dep member => ?_⟩
    have present := forM_eq_ok.mp deps dep member
    by_contra missing
    simp [missing, throw, throwThe, MonadExceptOf.throw] at present
  have closed : ∀ name dep, spec.Needs name dep → dep ∈ spec := by
    intro name dep needed
    rw [Spec.Needs, Spec.dependsOn] at needed
    split at needed
    next node found => exact (each name node found).2 dep needed
    next => cases needed
  exact ⟨closed, grounded_of_detectCycle closed acyclic,
    fun name node found service => readyWhen_of_validateNode (each name node found).1 service⟩

theorem acyclic_of_grounded (grounded : ∀ name, Acc (fun dep name => spec.Needs name dep) name) (name : String) :
    ¬ spec.DependsOn name name := by
  have irreflexive : Acc (Relation.TransGen fun dep name => spec.Needs name dep) name := (grounded name).transGen
  induction irreflexive with
  | intro name _ ih => exact fun cycle => ih name (Relation.transGen_swap.mp cycle) cycle

theorem detectCycle_eq_ok (closed : ∀ name dep, spec.Needs name dep → dep ∈ spec) :
    detectCycle spec = .ok () ↔ ∀ name, ¬ spec.DependsOn name name := by
  refine ⟨fun detected => acyclic_of_grounded (grounded_of_detectCycle closed detected), fun acyclic => ?_⟩
  cases detected : detectCycle spec with
  | ok => rfl
  | error error =>
    obtain ⟨path, -, ends⟩ := (detectCycle_ends closed).of_error detected
    obtain ⟨name, cycle⟩ := ends.dependsOn
    exact absurd cycle (acyclic name)

/-! ## What the order gives -/

section Order

variable {spec : Spec} {walk : Walk}

/-- A walk keeps what it has put in order, each node after those it waits for and none twice. -/
structure Walk.Sound (spec : Spec) (walk : Walk) : Prop where
  ordered : OrderedAfter (fun name => name) spec.dependsOn [] walk.order
  unique : walk.order.Nodup
  visited : ∀ name ∈ walk.order, walk.visited name = true

/-- What a visit adds is in order when the visit ends. -/
structure Walk.Leads (walk next : Walk) : Prop where
  order : walk.order ⊆ next.order
  visited : ∀ name, walk.visited name = true → next.visited name = true
  settled : ∀ name, next.visited name = true → walk.visited name = true ∨ name ∈ next.order
  fresh : ∀ name ∈ next.order, name ∈ walk.order ∨ walk.visited name = false

theorem Walk.Leads.refl : walk.Leads walk :=
  ⟨List.Subset.refl _, fun _ seen => seen, fun _ seen => .inl seen, fun _ member => .inl member⟩

theorem Walk.Leads.trans {middle next : Walk} (first : walk.Leads middle) (second : middle.Leads next) : walk.Leads next where
  order := List.Subset.trans first.order second.order
  visited name seen := second.visited name (first.visited name seen)
  settled name seen := by
    rcases second.settled name seen with before | now
    · exact (first.settled name before).imp_right fun member => second.order member
    · exact .inr now
  fresh name member := by
    rcases second.fresh name member with before | now
    · exact first.fresh name before
    · exact .inr (Bool.eq_false_iff.mpr fun seen => Bool.eq_false_iff.mp now (first.visited name seen))

variable {name : String}

theorem Walk.visited_mark {other : String} :
    (walk.mark name).visited other = true ↔ other = name ∨ walk.visited other = true := by
  rw [Walk.mark]
  by_cases same : other = name <;> simp [same]

theorem Walk.Sound.mark (sound : walk.Sound spec) : (walk.mark name).Sound spec :=
  ⟨sound.ordered, sound.unique, fun other member => Walk.visited_mark.mpr (.inr (sound.visited other member))⟩

theorem Walk.Sound.push (sound : walk.Sound spec) (deps : ∀ dep, spec.Needs name dep → dep ∈ walk.order)
    (absent : name ∉ walk.order) (visited : walk.visited name = true) : (walk.push name).Sound spec where
  ordered := sound.ordered.snoc fun dep member => .inr (by simpa using deps dep member)
  unique := nodup_append.mpr ⟨sound.unique, nodup_singleton _, by
    rintro other member _ single rfl
    exact absent (mem_singleton.mp single ▸ member)⟩
  visited := forall_mem_append.mpr ⟨sound.visited, forall_mem_singleton.mpr visited⟩

/-- A node is marked, what it waits for is visited, and then the node is put in order. -/
theorem Walk.Leads.push {final : Walk} (leads : (walk.mark name).Leads final) (fresh : walk.visited name = false) :
    walk.Leads (final.push name) where
  order _ member := mem_append_left _ (leads.order member)
  visited other seen := leads.visited other (Walk.visited_mark.mpr (.inr seen))
  settled other seen := by
    rcases leads.settled other seen with before | settled
    · rcases Walk.visited_mark.mp before with rfl | before
      · exact .inr (by simp [Walk.push])
      · exact .inl before
    · exact .inr (mem_append_left _ settled)
  fresh := by
    refine forall_mem_append.mpr ⟨fun other old => (leads.fresh other old).imp_right fun unmarked => ?_,
      forall_mem_singleton.mpr (.inr fresh)⟩
    exact Bool.eq_false_iff.mpr fun seen => Bool.eq_false_iff.mp unmarked (Walk.visited_mark.mpr (.inr seen))

/-- What visits of nodes of the spec make of a walk. -/
structure Walk.Extends (spec : Spec) (walk next : Walk) : Prop where
  sound : next.Sound spec
  leads : walk.Leads next
  nodes : ∀ name ∈ next.order, name ∈ walk.order ∨ name ∈ spec

theorem Walk.Sound.extends_refl (sound : walk.Sound spec) : walk.Extends spec walk := ⟨sound, .refl, fun _ member => .inl member⟩

theorem Walk.Extends.trans {middle next : Walk} (first : walk.Extends spec middle) (second : middle.Extends spec next) :
    walk.Extends spec next :=
  ⟨second.sound, first.leads.trans second.leads, fun name member => (second.nodes name member).elim (first.nodes name) .inr⟩

section

variable (closed : ∀ name dep, spec.Needs name dep → dep ∈ spec) (acyclic : ∀ name, ¬ spec.DependsOn name name)
include closed acyclic

/-- A visit puts a node and all it waits for in order, if what is visited and not in order waits for the node.  Its bound is
not reached. -/
theorem visitTopo_extends {fuel more : Nat} (known : name ∈ spec) (sound : walk.Sound spec)
    (path : ∀ other, walk.visited other = true → other ∈ walk.order ∨ spec.DependsOn other name)
    (enough : (unseen spec walk.visited).length < fuel) (atLeast : fuel ≤ more) :
    visitTopo spec more name walk = visitTopo spec fuel name walk ∧ walk.Extends spec (visitTopo spec fuel name walk) ∧
      name ∈ (visitTopo spec fuel name walk).order := by
  induction fuel generalizing name walk more with
  | zero => omega
  | succ fuel ih =>
    obtain ⟨more, rfl⟩ : ∃ less, more = less + 1 := ⟨more - 1, by omega⟩
    rw [visitTopo, visitTopo]
    split_ifs with seen
    · exact ⟨rfl, sound.extends_refl, (path name seen).resolve_right (acyclic name)⟩
    have fresh : walk.visited name = false := Bool.eq_false_iff.mpr seen
    obtain ⟨same, ⟨sound', leads, nodes⟩, deps⟩ := foldl_agree (fun walk dep => visitTopo spec more dep walk)
      (fun walk dep => visitTopo spec fuel dep walk) (spec.dependsOn name) (walk.mark name)
      (fun done state => (walk.mark name).Extends spec state ∧ ∀ dep ∈ done, dep ∈ state.order)
      ⟨sound.mark.extends_refl, by simp⟩ (by
        rintro done dep state needed ⟨extends_, members⟩
        -- What is marked and not in order is the node itself or waits for it, so it waits for the dependency.
        have above : ∀ other, state.visited other = true → other ∈ state.order ∨ spec.DependsOn other dep := by
          intro other visited
          rcases extends_.leads.settled other visited with before | settled
          · rcases Walk.visited_mark.mp before with rfl | before
            · exact .inr (.single needed)
            · exact (path other before).imp (fun member => extends_.leads.order member) fun depends => depends.tail needed
          · exact .inl settled
        have shorter : (unseen spec state.visited).length < (unseen spec walk.visited).length :=
          unseen_lt known fresh (extends_.leads.visited name (Walk.visited_mark.mpr (.inl rfl))) fun other visited =>
            extends_.leads.visited other (Walk.visited_mark.mpr (.inr visited))
        obtain ⟨agree, onward, member⟩ := ih (closed name dep needed) extends_.sound above (by omega) (Nat.le_of_succ_le_succ atLeast)
        exact ⟨agree, extends_.trans onward, forall_mem_append.mpr
          ⟨fun other old => onward.leads.order (members other old), forall_mem_singleton.mpr member⟩⟩)
    rw [same]
    have absent : name ∉ ((spec.dependsOn name).foldl (fun walk dep => visitTopo spec fuel dep walk) (walk.mark name)).order := by
      intro member
      rcases leads.fresh name member with before | unmarked
      · exact seen (sound.visited name before)
      · exact Bool.eq_false_iff.mp unmarked (Walk.visited_mark.mpr (.inl rfl))
    exact ⟨rfl, ⟨sound'.push deps absent (leads.visited name (Walk.visited_mark.mpr (.inl rfl))), leads.push fresh,
      forall_mem_append.mpr ⟨nodes, forall_mem_singleton.mpr (.inr known)⟩⟩, by simp [Walk.push]⟩

/-- The order holds every node once, after the nodes it waits for, and no bound changes it. -/
theorem topologicalOrder_ordered :
    OrderedAfter (fun name => name) spec.dependsOn [] (topologicalOrder spec) ∧ (topologicalOrder spec).Perm spec.keys ∧
      ∀ fuel, spec.size < fuel →
        (spec.keys.foldl (fun walk name => visitTopo spec fuel name walk) {}).order = topologicalOrder spec := by
  have start : Walk.Sound spec {} := ⟨trivial, nodup_nil, by simp⟩
  have all (fuel : Nat) (enough : spec.size < fuel) := foldl_agree (fun walk name => visitTopo spec fuel name walk)
    (fun walk name => visitTopo spec (spec.size + 1) name walk) spec.keys {}
    (fun done state => Walk.Extends spec {} state ∧ ∀ name ∈ done, name ∈ state.order) ⟨start.extends_refl, by simp⟩ (by
      rintro done name state known ⟨extends_, members⟩
      obtain ⟨agree, onward, member⟩ := visitTopo_extends closed acyclic (Std.ExtTreeMap.mem_keys.mp known) extends_.sound
        (fun other visited => .inl ((extends_.leads.settled other visited).resolve_left nofun))
        (Nat.lt_succ_of_le (unseen_le ..)) enough
      exact ⟨agree, extends_.trans onward, forall_mem_append.mpr
        ⟨fun other old => onward.leads.order (members other old), forall_mem_singleton.mpr member⟩⟩)
  obtain ⟨-, ⟨sound, -, nodes⟩, members⟩ := all _ (Nat.lt_succ_self _)
  refine ⟨sound.ordered, (perm_ext_iff_of_nodup sound.unique (Std.ExtTreeMap.nodup_keys)).mpr fun name =>
    ⟨fun member => Std.ExtTreeMap.mem_keys.mpr ((nodes name member).resolve_left nofun), members name⟩, fun fuel enough => ?_⟩
  exact congrArg Walk.order (all fuel enough).1

end

end Order

end Index.DagRunner
