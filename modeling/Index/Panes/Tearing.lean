import Mathlib
import Index.Panes.Display

/-! # Two textures and a GPU

Tiles are uploaded to a texture right before it is drawn.  The GPU reads a texture until the draws of it are through, in the
order of their submission, and the window knows the last of them only. -/

namespace Index.Panes

open List

/-- The tiles since the last one of the whole surface. -/
def since (width height : Nat) (tiles : List PendingTile) : List PendingTile :=
  tiles.foldl (fun kept tile => if tile.rect = ⟨0, 0, width, height⟩ then [tile] else kept ++ [tile]) []

/-- A window with the draws of its textures, numbered in the order of their submission. -/
structure Screen where
  window : PaneWindow
  submitted : Fin 2 → Nat := fun _ => 0
  completed : Fin 2 → Nat := fun _ => 0

namespace Screen

inductive Event where
  | push (tile : PendingTile)
  /-- The tiles of a frame are pushed, and it may be presented. -/
  | mark (seq : Nat)
  | occlude (occluded : Bool)
  | tick (drawn : Bool)
  /-- The oldest draw of a texture that is in flight completes. -/
  | complete (index : Fin 2)

/-- The last draw has not completed. -/
def inFlight (screen : Screen) (index : Fin 2) : Bool := screen.completed index < screen.submitted index

/-- The texture that a tick draws: the one it makes current, if it gets through. -/
def draws (screen : Screen) (drawn : Bool) : Option (Fin 2) :=
  let after := (screen.window.present screen.inFlight drawn).2
  if screen.window.dirty && !screen.window.occluded && !after.dirty then after.surface.map Surface.current else none

def step (screen : Screen) : Event → Screen
  | .push tile => { screen with window.surface := screen.window.surface.map fun surface => surface.push tile.rect tile.bytes }
  | .mark seq => { screen with window.pendingAck := some seq, window.dirty := true }
  | .occlude occluded => { screen with window.occluded := occluded }
  | .tick drawn =>
    { screen with
      window := (screen.window.present screen.inFlight drawn).2
      submitted := fun index => screen.submitted index + if screen.draws drawn = some index then 1 else 0 }
  | .complete index =>
    { screen with completed := Function.update screen.completed index (min (screen.completed index + 1) (screen.submitted index)) }

def start (textures : Fin 2 → Image) (width height : Nat) : Screen := { window.surface := some (.new textures width height) }

def texture (screen : Screen) (index : Fin 2) : Option Image :=
  screen.window.surface.map fun surface => (surface.slots index).texture

def Event.tile? : Event → Option PendingTile
  | .push tile => some tile
  | _ => none

variable {screen : Screen} {index : Fin 2} {textures : Fin 2 → Image} {width height : Nat} {tiles : List PendingTile}

/-- Both textures, with what they have not taken up, are what the tiles since the last one of the whole surface make. -/
structure Made (textures : Fin 2 → Image) (width height : Nat) (tiles : List PendingTile) (surface : Surface) : Prop where
  across : surface.width = width
  down : surface.height = height
  ordered : surface.Ordered
  logical : ∀ index, ∀ row < height, ∀ col < width * bytesPerPixel,
    surface.logical index row col = (textures index).absorb (since width height tiles) row col

variable {surface result : Surface}

theorem Made.keeps (made : Made textures width height tiles surface) (keeps : surface.Keeps result) :
    Made textures width height tiles result :=
  ⟨keeps.width.trans made.across, keeps.height.trans made.down, keeps.ordered made.ordered, keeps.logical ▸ made.logical⟩

theorem Made.push (made : Made textures width height tiles surface) (tile : PendingTile) :
    Made textures width height (tiles ++ [tile]) (surface.push tile.rect tile.bytes) where
  across := Surface.width_push.trans made.across
  down := Surface.height_push.trans made.down
  ordered := made.ordered.push _ _
  logical index row inside col inRow := by
    rw [Surface.logical_push made.ordered _ _ (made.down ▸ inside) (made.across ▸ inRow), since, foldl_append]
    simp only [foldl_cons, foldl_nil]
    split_ifs with whole
    · rw [Image.absorb, foldl_cons, foldl_nil, whole]
      exact Surface.upload_whole _ _ inside inRow
    · rw [Image.absorb, foldl_append]
      exact if_congr Iff.rfl rfl (made.logical index row inside col inRow)

/-- No event writes to a texture that is in flight. -/
theorem texture_step (event : Event) (reads : screen.inFlight index = true) : (screen.step event).texture index = screen.texture index := by
  cases event with
  | mark | occlude | complete => rfl
  | push tile =>
    simp only [texture, step, Option.map_map]
    congr 1
    funext surface
    simp only [Function.comp_apply, Surface.push]
    split_ifs <;> rfl
  | tick drawn =>
    cases found : screen.window.surface with
    | none => simp [texture, step, PaneWindow.present, found]
    | some surface =>
      obtain ⟨result, isResult, -, spared, -⟩ := PaneWindow.present_surface screen.inFlight drawn found
      simp only [texture, step, isResult, found, Option.map_some, spared index reads]

theorem made_step {event : Event} (made : ∃ surface, screen.window.surface = some surface ∧ Made textures width height tiles surface) :
    ∃ surface, (screen.step event).window.surface = some surface ∧ Made textures width height (tiles ++ event.tile?.toList) surface := by
  obtain ⟨surface, found, made⟩ := made
  cases event with
  | push tile => exact ⟨_, by rw [step, found]; rfl, made.push tile⟩
  | tick drawn =>
    obtain ⟨result, isResult, keeps, -⟩ := PaneWindow.present_surface screen.inFlight drawn found
    exact ⟨result, isResult, by simpa [Event.tile?] using made.keeps keeps⟩
  | mark | occlude | complete => exact ⟨surface, found, by simpa [Event.tile?] using made⟩

theorem made_run (textures : Fin 2 → Image) (width height : Nat) (events : List Event) :
    ∃ surface, (events.foldl step (start textures width height)).window.surface = some surface ∧
      Made textures width height (events.filterMap Event.tile?) surface := by
  induction events using List.reverseRecOn with
  | nil => exact ⟨_, rfl, rfl, rfl, Surface.ordered_new _ _ _, fun _ _ _ _ _ => rfl⟩
  | append_singleton events event ih =>
    rw [foldl_append, filterMap_append]
    exact made_step ih

/-- In every run, a texture with a draw in flight is not written to, a texture that is drawn is what all tiles since the last
one of the whole surface make of its first contents, and no slot has taken up more of the log than there is. -/
theorem drawn_texture_current (textures : Fin 2 → Image) (width height : Nat) (events : List Event) :
    let screen := events.foldl step (start textures width height)
    (∀ event index draw, screen.completed index < draw → draw ≤ screen.submitted index →
      (screen.step event).texture index = screen.texture index) ∧
    (∀ drawn index, screen.draws drawn = some index → ∃ image, (screen.step (.tick drawn)).texture index = some image ∧
      ∀ row < height, ∀ col < width * bytesPerPixel,
        image row col = (textures index).absorb (since width height (events.filterMap Event.tile?)) row col) ∧
    ∃ surface, screen.window.surface = some surface ∧ ∀ index, (surface.slots index).absorbed ≤ surface.log.length := by
  obtain ⟨surface, found, made⟩ := made_run textures width height events
  generalize events.foldl step (start textures width height) = screen at found ⊢
  refine ⟨fun event index draw open_ submitted => ?_, fun drawn index draws => ?_, surface, found, made.ordered⟩
  · exact texture_step event (decide_eq_true (lt_of_lt_of_le open_ submitted))
  · obtain ⟨result, isResult, keeps, -, current⟩ := PaneWindow.present_surface screen.inFlight drawn found
    rw [Screen.draws] at draws
    split_ifs at draws with through
    simp only [Bool.and_eq_true, Bool.not_eq_true'] at through
    obtain rfl : result.current = index := by simpa [isResult] using draws
    refine ⟨(result.slots result.current).texture, by rw [texture, step, isResult]; rfl, fun row inside col inRow => ?_⟩
    rw [current through.1.1 through.1.2 through.2]
    exact (made.keeps keeps).logical _ row inside col inRow

end Screen

end Index.Panes
