import Index.AstMerge.Lines
import Index.Lib.Cluster

/-! # Growing a region

A side's hunks form an edit script from the base to the side, and a cursor stands at a pair of aligned
positions of both.  Growing a region absorbs hunks of either side one by one, so the absorbed hunks
form a cluster, and the region ends at the least line that no hunk crosses. -/

namespace Index.AstMerge

open Index.Lib List

/-! ## Edit scripts -/

/-- The hunks edit the base from line `basePos` on into the side from line `sidePos` on: they come in
order without overlap, and between them both have the same lines. -/
inductive Script (base side : List String) : Nat → Nat → List Hunk → Prop
  | done {basePos sidePos : Nat} (baseInside : basePos ≤ base.length) (sideInside : sidePos ≤ side.length)
      (same : base.drop basePos = side.drop sidePos) : Script base side basePos sidePos []
  | edit {basePos sidePos : Nat} {hunk : Hunk} {rest : List Hunk}
      (baseOrder : basePos ≤ hunk.base.start ∧ hunk.base.start ≤ hunk.base.stop ∧ hunk.base.stop ≤ base.length)
      (sideOrder : sidePos ≤ hunk.side.start ∧ hunk.side.start ≤ hunk.side.stop ∧ hunk.side.stop ≤ side.length)
      (same : (base.drop basePos).take (hunk.base.start - basePos) =
        (side.drop sidePos).take (hunk.side.start - sidePos))
      (later : Script base side hunk.base.stop hunk.side.stop rest) : Script base side basePos sidePos (hunk :: rest)

/-- All hunks of a list start after a line. -/
def StartsAfter (line : Nat) (hunks : List Hunk) : Prop := ∀ hunk ∈ hunks, line < hunk.base.start

namespace Script

variable {base side : List String} {basePos sidePos : Nat} {hunks rest : List Hunk} {hunk : Hunk}

section

variable (script : Script base side basePos sidePos hunks)
include script

theorem base_inside : basePos ≤ base.length := by
  cases script with
  | done baseInside => exact baseInside
  | edit baseOrder => omega

theorem side_inside : sidePos ≤ side.length := by
  cases script with
  | done _ sideInside => exact sideInside
  | edit _ sideOrder => omega

theorem ordered :
    ∀ hunk ∈ hunks, basePos ≤ hunk.base.start ∧ hunk.base.start ≤ hunk.base.stop ∧ hunk.base.stop ≤ base.length := by
  induction script with
  | done => nofun
  | edit baseOrder _ _ _ ih =>
    intro other member
    rcases mem_cons.mp member with rfl | later
    · exact baseOrder
    · have := ih other later
      omega

/-- Once the first hunk starts after a line, all do. -/
theorem startsAfter {line : Nat} (first : ∀ hunk, hunks.head? = some hunk → line < hunk.base.start) : StartsAfter line hunks := by
  cases script with
  | done => nofun
  | @edit _ _ hunk rest baseOrder _ _ later =>
    have here := first hunk rfl
    intro other member
    rcases mem_cons.mp member with rfl | inside
    · exact here
    · have := later.ordered other inside
      omega

/-- Both positions can be moved over lines that no hunk starts in. -/
theorem skip {next : Nat} (forward : basePos ≤ next) (inside : next ≤ base.length)
    (before : ∀ hunk ∈ hunks, next ≤ hunk.base.start) : Script base side next (sidePos + (next - basePos)) hunks ∧
      (base.drop basePos).take (next - basePos) = (side.drop sidePos).take (next - basePos) := by
  cases script with
  | done baseInside sideInside same =>
    have lengths := congrArg List.length same
    simp only [length_drop] at lengths
    refine ⟨.done inside (by omega) ?_, by rw [same]⟩
    have moved := congrArg (List.drop (next - basePos)) same
    simpa only [drop_drop, Nat.add_sub_cancel' forward] using moved
  | @edit _ _ hunk rest baseOrder sideOrder same later =>
    have reach := before hunk mem_cons_self
    have lengths := congrArg List.length same
    simp only [length_take, length_drop] at lengths
    have gap : hunk.side.start - sidePos = hunk.base.start - basePos := by omega
    rw [gap] at same
    refine ⟨.edit ⟨reach, baseOrder.2⟩ ⟨by omega, sideOrder.2⟩ ?_ later, ?_⟩
    · -- what is left of the gap before the hunk
      have moved := congrArg (List.drop (next - basePos)) same
      simp only [drop_take, drop_drop, Nat.add_sub_cancel' forward] at moved
      rw [show hunk.base.start - next = hunk.base.start - basePos - (next - basePos) by omega,
        show hunk.side.start - (sidePos + (next - basePos)) = hunk.base.start - basePos - (next - basePos) by omega]
      exact moved
    · have cut := congrArg (List.take (next - basePos)) same
      simpa only [take_take, Nat.min_eq_left (show next - basePos ≤ hunk.base.start - basePos by omega)] using cut

end

/-- The aligned positions after a last hunk, or those before it when there is none. -/
def after (basePos sidePos : Nat) : Option Hunk → Nat × Nat
  | none => (basePos, sidePos)
  | some hunk => (hunk.base.stop, hunk.side.stop)

/-- A script can be run over its first hunks. -/
theorem run {taken : List Hunk} (script : Script base side basePos sidePos (taken ++ rest)) :
    Script base side (after basePos sidePos taken.getLast?).1 (after basePos sidePos taken.getLast?).2 rest ∧
      sidePos ≤ (after basePos sidePos taken.getLast?).2 := by
  induction taken generalizing basePos sidePos with
  | nil => exact ⟨script, le_rfl⟩
  | cons hunk taken ih =>
    cases script with
    | edit baseOrder sideOrder _ later =>
      obtain ⟨script, forward⟩ := ih later
      have last : after basePos sidePos (hunk :: taken).getLast? =
          after hunk.base.stop hunk.side.stop taken.getLast? := by
        cases taken with
        | nil => rfl
        | cons other taken => simp [getLast?_cons, after]
      rw [last]
      exact ⟨script, by omega⟩

end Script

/-! ## Absorbing hunks -/

/-- Absorbing hunks of either side, each starting within the region reached so far. -/
inductive Absorbs : SideCursor → SideCursor → Nat → SideCursor → SideCursor → Nat → Prop
  | none {left right : SideCursor} {stop : Nat} : Absorbs left right stop left right stop
  | left {hunk : Hunk} {rest : List Hunk} {last : Option Hunk} {pos stop stop' : Nat} {right left' right' : SideCursor}
      (starts : hunk.base.start ≤ stop)
      (later : Absorbs ⟨rest, some hunk, pos⟩ right (max stop hunk.base.stop) left' right' stop') :
      Absorbs ⟨hunk :: rest, last, pos⟩ right stop left' right' stop'
  | right {hunk : Hunk} {rest : List Hunk} {last : Option Hunk} {pos stop stop' : Nat} {left left' right' : SideCursor}
      (starts : hunk.base.start ≤ stop)
      (later : Absorbs left ⟨rest, some hunk, pos⟩ (max stop hunk.base.stop) left' right' stop') :
      Absorbs left ⟨hunk :: rest, last, pos⟩ stop left' right' stop'

variable {left right left' right' left'' right'' : SideCursor} {stop stop' stop'' : Nat}

theorem Absorbs.trans (first : Absorbs left right stop left' right' stop')
    (second : Absorbs left' right' stop' left'' right'' stop'') : Absorbs left right stop left'' right'' stop'' := by
  induction first with
  | none => exact second
  | left starts _ ih => exact .left starts (ih second)
  | right starts _ ih => exact .right starts (ih second)

theorem Absorbs.swap (absorbs : Absorbs left right stop left' right' stop') :
    Absorbs right left stop right' left' stop' := by
  induction absorbs with
  | none => exact .none
  | left starts _ ih => exact .right starts ih
  | right starts _ ih => exact .left starts ih

namespace SideCursor

theorem consumeHunks_raised (rest : List Hunk) (last : Option Hunk) (stop : Nat) :
    (consumeHunks rest last stop true).2.2.2 = true := by
  induction rest generalizing last stop with
  | nil => rfl
  | cons hunk rest ih =>
    rw [consumeHunks]
    split
    · exact ih _ _
    · rfl

/-- The loop of `consume` absorbs hunks up to one that starts after the region. -/
theorem consumeHunks_absorbs {rest rest' : List Hunk} {last last' : Option Hunk} {grew grew' : Bool} (pos : Nat)
    (other : SideCursor) (ran : consumeHunks rest last stop grew = (rest', last', stop', grew')) :
    Absorbs ⟨rest, last, pos⟩ other stop ⟨rest', last', pos⟩ other stop' ∧
      (∀ hunk, rest'.head? = some hunk → stop' < hunk.base.start) ∧ rest'.length ≤ rest.length ∧
      (grew' = false → rest' = rest ∧ last' = last ∧ stop' = stop) ∧
      (grew' = true → grew = true ∨ rest'.length < rest.length) := by
  induction rest generalizing last stop grew with
  | nil =>
    obtain ⟨rfl, rfl, rfl, rfl⟩ := ran
    exact ⟨.none, nofun, le_rfl, fun _ => ⟨rfl, rfl, rfl⟩, .inl⟩
  | cons hunk rest ih =>
    rw [consumeHunks] at ran
    split at ran
    next starts =>
      obtain ⟨absorbs, first, shorter, -, -⟩ := ih ran
      refine ⟨.left starts absorbs, first, Nat.le_succ_of_le shorter, fun still => ?_, fun _ => .inr (Nat.lt_succ_of_le shorter)⟩
      have raised := consumeHunks_raised rest (some hunk) (max stop hunk.base.stop)
      rw [ran, still] at raised
      cases raised
    next beyond =>
      obtain ⟨rfl, rfl, rfl, rfl⟩ := ran
      refine ⟨.none, ?_, le_rfl, fun _ => ⟨rfl, rfl, rfl⟩, .inl⟩
      rintro first ⟨⟩
      omega

theorem consume_absorbs {side side' : SideCursor} {grew : Bool} (other : SideCursor)
    (ran : side.consume stop = (side', stop', grew)) :
    Absorbs side other stop side' other stop' ∧ (∀ hunk, side'.rest.head? = some hunk → stop' < hunk.base.start) ∧
      (grew = false → side' = side ∧ stop' = stop) ∧ (grew = true → side'.rest.length < side.rest.length) ∧
      side'.rest.length ≤ side.rest.length := by
  obtain ⟨rest, last, pos⟩ := side
  rcases loop : consumeHunks rest last stop false with ⟨rest', last', reached, flag⟩
  simp only [consume, loop, Prod.mk.injEq] at ran
  obtain ⟨rfl, rfl, rfl⟩ := ran
  obtain ⟨absorbs, first, shorter, idle, strictly⟩ := consumeHunks_absorbs pos other loop
  refine ⟨absorbs, first, fun still => ?_, fun grew => (strictly grew).resolve_left nofun, shorter⟩
  obtain ⟨rfl, rfl, rfl⟩ := idle still
  exact ⟨rfl, rfl⟩

end SideCursor

/-- `grow` absorbs hunks until the next ones of both sides start after the region. -/
theorem grow_absorbs {fuel : Nat} (ran : grow fuel left right stop = some (left', right', stop')) :
    Absorbs left right stop left' right' stop' ∧ (∀ hunk, left'.rest.head? = some hunk → stop' < hunk.base.start) ∧
      ∀ hunk, right'.rest.head? = some hunk → stop' < hunk.base.start := by
  induction fuel generalizing left right stop with
  | zero => cases ran
  | succ fuel ih =>
    rw [grow] at ran
    rcases leftRan : left.consume stop with ⟨leftNext, leftStop, leftGrew⟩
    rcases rightRan : right.consume leftStop with ⟨rightNext, rightStop, rightGrew⟩
    obtain ⟨leftAbsorbs, leftFirst, leftIdle, -, -⟩ := SideCursor.consume_absorbs right leftRan
    obtain ⟨rightAbsorbs, rightFirst, rightIdle, -, -⟩ := SideCursor.consume_absorbs leftNext rightRan
    simp only [leftRan, rightRan] at ran
    split at ran
    next =>
      obtain ⟨later, firsts⟩ := ih ran
      exact ⟨(leftAbsorbs.trans rightAbsorbs.swap).trans later, firsts⟩
    next idle =>
      simp only [Bool.or_eq_true, not_or, Bool.not_eq_true] at idle
      obtain ⟨rfl, rfl⟩ := leftIdle idle.1
      obtain ⟨rfl, rfl⟩ := rightIdle idle.2
      obtain ⟨rfl, rfl, rfl⟩ := ran
      exact ⟨.none, leftFirst, rightFirst⟩

/-- Every round of `grow` but the last consumes a hunk, so it ends. -/
theorem grow_isSome {fuel : Nat} (enough : left.rest.length + right.rest.length < fuel) :
    ∃ left' right' stop', grow fuel left right stop = some (left', right', stop') := by
  induction fuel generalizing left right stop with
  | zero => omega
  | succ fuel ih =>
    rcases leftRan : left.consume stop with ⟨leftNext, leftStop, leftGrew⟩
    rcases rightRan : right.consume leftStop with ⟨rightNext, rightStop, rightGrew⟩
    obtain ⟨-, -, -, leftShorter, leftLe⟩ := SideCursor.consume_absorbs right leftRan
    obtain ⟨-, -, -, rightShorter, rightLe⟩ := SideCursor.consume_absorbs leftNext rightRan
    simp only [grow, leftRan, rightRan]
    split
    next grew =>
      refine ih ?_
      rcases Bool.or_eq_true _ _ ▸ grew with leftGrew | rightGrew
      · have := leftShorter leftGrew
        omega
      · have := rightShorter rightGrew
        omega
    next => exact ⟨_, _, _, rfl⟩

/-! ## What is absorbed -/

/-- The cluster of base ranges that growth has reached. -/
abbrev GrownOver (members : Set Hunk) (low high : Nat) : Prop :=
  Grown (fun hunk : Hunk => hunk.base.start) (fun hunk : Hunk => hunk.base.stop) members low high

/-- A side gives its first hunks to a region. -/
structure Takes (side side' : SideCursor) (stop : Nat) (taken : List Hunk) : Prop where
  split : side.rest = taken ++ side'.rest
  last : side'.last = taken.getLast?.or side.last
  pos : side'.pos = side.pos
  within : ∀ hunk ∈ taken, hunk.base.start ≤ stop ∧ hunk.base.stop ≤ stop

namespace Takes

variable {side side' side'' : SideCursor} {taken taken' : List Hunk}

theorem cons {hunk : Hunk} {rest : List Hunk} {last : Option Hunk} {pos : Nat} (takes : Takes ⟨rest, some hunk, pos⟩ side' stop taken)
    (within : hunk.base.start ≤ stop ∧ hunk.base.stop ≤ stop) : Takes ⟨hunk :: rest, last, pos⟩ side' stop (hunk :: taken) where
  split := congrArg (hunk :: ·) takes.split
  last := by
    rw [takes.last, getLast?_cons]
    cases taken.getLast? <;> rfl
  pos := takes.pos
  within := forall_mem_cons.mpr ⟨within, takes.within⟩

variable (takes : Takes side side' stop taken) (beyond : StartsAfter stop side'.rest)
include takes beyond

theorem uncrossed : ∀ hunk ∈ side.rest, hunk.base.start ≤ stop → hunk.base.stop ≤ stop := by
  intro hunk member starts
  rw [takes.split] at member
  rcases mem_append.mp member with inside | rest
  · exact (takes.within hunk inside).2
  · exact absurd starts (beyond hunk rest).not_ge

theorem rest_eq : side'.rest = side.rest.dropWhile fun hunk => hunk.base.start ≤ stop := by
  rw [takes.split, dropWhile_append_of_pos fun hunk member => decide_eq_true (takes.within hunk member).1]
  refine (dropWhile_eq_self_iff.mpr fun nonempty => ?_).symm
  simpa using beyond _ (get_mem side'.rest ⟨0, nonempty⟩)

/-- What a side gives to a region up to a line that the others start after is determined. -/
theorem unique (takes' : Takes side side'' stop taken') (beyond' : StartsAfter stop side''.rest) : side' = side'' := by
  have rests := (takes.rest_eq beyond).trans (takes'.rest_eq beyond').symm
  have same := takes.split.symm.trans takes'.split
  rw [rests, append_cancel_right_eq] at same
  have lasts := takes.last.trans (same ▸ takes'.last.symm)
  have positions := takes.pos.trans takes'.pos.symm
  cases side'
  cases side''
  simp_all

end Takes

/-- Absorbing takes hunks of both sides into whatever cluster was there. -/
theorem Absorbs.taken {low : Nat} {members : Set Hunk} (absorbs : Absorbs left right stop left' right' stop')
    (grown : GrownOver members low stop)
    (ordered : ∀ hunk ∈ left.rest ++ right.rest, low ≤ hunk.base.start ∧ hunk.base.start ≤ hunk.base.stop) :
    ∃ leftTaken rightTaken, Takes left left' stop' leftTaken ∧ Takes right right' stop' rightTaken ∧ stop ≤ stop' ∧
      GrownOver (members ∪ {hunk | hunk ∈ leftTaken ++ rightTaken}) low stop' := by
  induction absorbs generalizing members with
  | none => exact ⟨[], [], ⟨rfl, rfl, rfl, nofun⟩, ⟨rfl, rfl, rfl, nofun⟩, le_rfl, by simpa using grown⟩
  | @left hunk _ _ _ _ _ _ _ _ starts _ ih =>
    obtain ⟨⟨above, inOrder⟩, later⟩ := forall_mem_cons.mp ordered
    obtain ⟨leftTaken, rightTaken, leftTakes, rightTakes, forward, final⟩ := ih (grown.absorb inOrder above starts) later
    refine ⟨hunk :: leftTaken, rightTaken, leftTakes.cons (by omega), rightTakes, by omega, ?_⟩
    convert final using 1
    ext other
    simp only [cons_append, mem_cons, Set.mem_union, Set.mem_insert_iff, Set.mem_ofPred_eq]
    tauto
  | @right hunk _ _ _ _ _ _ _ _ starts _ ih =>
    obtain ⟨earlier, both⟩ := forall_mem_append.mp ordered
    obtain ⟨⟨above, inOrder⟩, later⟩ := forall_mem_cons.mp both
    obtain ⟨leftTaken, rightTaken, leftTakes, rightTakes, forward, final⟩ :=
      ih (grown.absorb inOrder above starts) (forall_mem_append.mpr ⟨earlier, later⟩)
    refine ⟨leftTaken, hunk :: rightTaken, leftTakes, rightTakes.cons (by omega), by omega, ?_⟩
    convert final using 1
    ext other
    simp only [mem_append, mem_cons, Set.mem_union, Set.mem_insert_iff, Set.mem_ofPred_eq]
    tauto

/-- A line no hunk crosses is not crossed by the region. -/
theorem Absorbs.stop_le {line : Nat} (absorbs : Absorbs left right stop left' right' stop') (above : stop ≤ line)
    (uncrossed : ∀ hunk ∈ left.rest ++ right.rest, hunk.base.start ≤ line → hunk.base.stop ≤ line) : stop' ≤ line := by
  induction absorbs with
  | none => exact above
  | left starts _ ih =>
    obtain ⟨here, later⟩ := forall_mem_cons.mp uncrossed
    exact ih (max_le above (here (by omega))) later
  | right starts _ ih =>
    obtain ⟨earlier, both⟩ := forall_mem_append.mp uncrossed
    obtain ⟨here, later⟩ := forall_mem_cons.mp both
    exact ih (max_le above (here (by omega))) (forall_mem_append.mpr ⟨earlier, later⟩)

/-! ## The region is determined -/

/-- Two complete absorptions from the same cursors reach the same cursors and the same end: it is the least line that no
hunk crosses. -/
theorem Absorbs.unique (first : Absorbs left right stop left' right' stop')
    (second : Absorbs left right stop left'' right'' stop'')
    (ordered : ∀ hunk ∈ left.rest ++ right.rest, stop ≤ hunk.base.start ∧ hunk.base.start ≤ hunk.base.stop)
    (beyond : StartsAfter stop' left'.rest ∧ StartsAfter stop' right'.rest)
    (beyond' : StartsAfter stop'' left''.rest ∧ StartsAfter stop'' right''.rest) :
    left' = left'' ∧ right' = right'' ∧ stop' = stop'' := by
  obtain ⟨_, _, leftTakes, rightTakes, forward, -⟩ := first.taken (.inl ⟨rfl, rfl⟩) ordered
  obtain ⟨_, _, leftTakes', rightTakes', forward', -⟩ := second.taken (.inl ⟨rfl, rfl⟩) ordered
  obtain rfl : stop' = stop'' := le_antisymm
    (first.stop_le forward' (forall_mem_append.mpr ⟨leftTakes'.uncrossed beyond'.1, rightTakes'.uncrossed beyond'.2⟩))
    (second.stop_le forward (forall_mem_append.mpr ⟨leftTakes.uncrossed beyond.1, rightTakes.uncrossed beyond.2⟩))
  exact ⟨leftTakes.unique beyond.1 leftTakes' beyond'.1, rightTakes.unique beyond.2 rightTakes' beyond'.2, rfl⟩

/-- The region grown from aligned cursors: the hunks taken from both sides, a cluster that starts at
the region's start, and the cursors after them. -/
structure Grows (base : List String) (left right left' right' : SideCursor) (start stop : Nat)
    (leftTaken rightTaken : List Hunk) : Prop where
  leftSplit : left.rest = leftTaken ++ left'.rest
  rightSplit : right.rest = rightTaken ++ right'.rest
  leftCursor : left'.last = leftTaken.getLast? ∧ left'.pos = left.pos
  rightCursor : right'.last = rightTaken.getLast? ∧ right'.pos = right.pos
  forward : start ≤ stop
  inside : stop ≤ base.length
  within : ∀ hunk ∈ leftTaken ++ rightTaken, hunk.base.stop ≤ stop
  beyond : StartsAfter stop left'.rest ∧ StartsAfter stop right'.rest
  grown : GrownOver {hunk | hunk ∈ leftTaken ++ rightTaken} start stop

variable {base leftLines rightLines : List String} {next leftPos rightPos fuel : Nat} {leftRest rightRest : List Hunk}

theorem starts_ordered (leftScript : Script base leftLines next leftPos leftRest)
    (rightScript : Script base rightLines next rightPos rightRest) :
    ∀ hunk ∈ leftRest ++ rightRest,
      next ≤ hunk.base.start ∧ hunk.base.start ≤ hunk.base.stop ∧ hunk.base.stop ≤ base.length :=
  forall_mem_append.mpr ⟨leftScript.ordered, rightScript.ordered⟩

/-- What a script has left after some hunks goes on in order. -/
theorem Takes.startsAfter {side : List String} {cursor cursor' : SideCursor} {taken : List Hunk} {basePos sidePos line : Nat}
    (takes : Takes cursor cursor' stop taken) (script : Script base side basePos sidePos cursor.rest)
    (first : ∀ hunk, cursor'.rest.head? = some hunk → line < hunk.base.start) : StartsAfter line cursor'.rest := by
  rw [takes.split] at script
  exact script.run.1.startsAfter first

theorem grow_beyond (leftScript : Script base leftLines next leftPos leftRest)
    (rightScript : Script base rightLines next rightPos rightRest)
    (ran : grow fuel ⟨leftRest, none, leftPos⟩ ⟨rightRest, none, rightPos⟩ next = some (left', right', stop)) :
    ∃ leftTaken rightTaken,
      Grows base ⟨leftRest, none, leftPos⟩ ⟨rightRest, none, rightPos⟩ left' right' next stop leftTaken rightTaken := by
  obtain ⟨absorbs, leftFirst, rightFirst⟩ := grow_absorbs ran
  have ordered := starts_ordered leftScript rightScript
  obtain ⟨leftTaken, rightTaken, leftTakes, rightTakes, forward, grown⟩ :=
    absorbs.taken (.inl ⟨rfl, rfl⟩) (fun hunk member => ⟨(ordered hunk member).1, (ordered hunk member).2.1⟩)
  have inside : stop ≤ base.length := absorbs.stop_le leftScript.base_inside fun hunk member _ => (ordered hunk member).2.2
  have within : ∀ hunk ∈ leftTaken ++ rightTaken, hunk.base.stop ≤ stop := forall_mem_append.mpr
    ⟨fun hunk member => (leftTakes.within hunk member).2, fun hunk member => (rightTakes.within hunk member).2⟩
  exact ⟨leftTaken, rightTaken, leftTakes.split, rightTakes.split, ⟨by simpa using leftTakes.last, leftTakes.pos⟩,
    ⟨by simpa using rightTakes.last, rightTakes.pos⟩, forward, inside, within,
    ⟨leftTakes.startsAfter leftScript leftFirst, rightTakes.startsAfter rightScript rightFirst⟩, by simpa using grown⟩

/-- The order in which the sides are asked for hunks makes no difference. -/
theorem grow_swap (leftScript : Script base leftLines next leftPos leftRest)
    (rightScript : Script base rightLines next rightPos rightRest) (enough : leftRest.length + rightRest.length < fuel)
    (ran : grow fuel ⟨leftRest, none, leftPos⟩ ⟨rightRest, none, rightPos⟩ next = some (left', right', stop)) :
    grow fuel ⟨rightRest, none, rightPos⟩ ⟨leftRest, none, leftPos⟩ next = some (right', left', stop) := by
  obtain ⟨right'', left'', stop'', swapped⟩ : ∃ right'' left'' stop'',
      grow fuel ⟨rightRest, none, rightPos⟩ ⟨leftRest, none, leftPos⟩ next = some (right'', left'', stop'') :=
    grow_isSome (by dsimp only; omega)
  obtain ⟨leftTaken, rightTaken, grows⟩ := grow_beyond leftScript rightScript ran
  obtain ⟨rightTaken', leftTaken', grows'⟩ := grow_beyond rightScript leftScript swapped
  have ordered := starts_ordered leftScript rightScript
  obtain ⟨rfl, rfl, rfl⟩ := (grow_absorbs ran).1.unique (grow_absorbs swapped).1.swap
    (fun hunk member => ⟨(ordered hunk member).1, (ordered hunk member).2.1⟩) grows.beyond grows'.beyond.symm
  exact swapped

end Index.AstMerge
