import Mathlib
import Index.Lib.Run
import Index.Panes.Moves

/-! # What moves keep

An announced pane stands in some relation to what the current connection was told, and every connection was told
something lawful.  It is enough that one move of one pane keeps this, and that what is said of other windows does not
matter to it. -/

namespace Index.Panes

open List

/-- What one more item after another keeps, more items keep. -/
theorem append_of_concat {α : Type*} {items more : List α} (holds : List α → Prop) (initially : holds items)
    (kept : ∀ items, ∀ item ∈ more, holds items → holds (items ++ [item])) : holds (items ++ more) := by
  induction more generalizing items with
  | nil => rwa [append_nil]
  | cons item more ih =>
    rw [append_cons]
    exact ih (kept items item mem_cons_self initially) fun items item later => kept items item (mem_cons_of_mem _ later)

/-- A message with the commit that it was taken from. -/
abbrev Entry := ToHost × Option Pixels

/-- The window that a message announces, bounds, shows or ends. -/
def ToHost.window : ToHost → Option WindowId
  | .windowNew id .. | .windowMinMax id .. | .windowFrame id .. | .windowGone id => some id
  | .hello .. | .windowTitle .. | .pong .. | .windowScale .. => none

theorem window_of_aside {message : ToHost} (aside : message.aside = true) : message.window = none := by
  cases message <;> simp [ToHost.aside, ToHost.window] at aside ⊢

theorem others_of_aside {messages : List Entry} (aside : ∀ message ∈ messages, message.1.aside = true) (id : WindowId) :
    ∀ message ∈ messages, message.1.window ≠ some id := by
  intro message member
  simp [window_of_aside (aside message member)]

section PaneMove

variable {lz4 : Lz4} {arrives : Pixels → Prop} {ready : Bool} {pane next : Pane} {messages : List Entry}

theorem PaneMove.id_eq (move : PaneMove lz4 arrives ready pane next messages) : next.id = pane.id := by
  cases move <;> assumption

variable {message : Entry}

theorem eq_of_mem_goneMessages (member : message ∈ App.goneMessages pane) : message = (.windowGone pane.id, none) := by
  rw [App.goneMessages] at member
  split_ifs at member
  · exact mem_singleton.mp member
  · cases member

/-- A pane has only its own window spoken of. -/
theorem PaneMove.window (move : PaneMove lz4 arrives ready pane next messages) (member : message ∈ messages) :
    message.1.window = none ∨ message.1.window = some pane.id := by
  cases move with
  | quiet _ _ _ _ aside => exact Or.inl (window_of_aside (aside message member))
  | commit | expire | idle => cases member
  | announce _ _ _ _ _ bounds =>
    rcases mem_cons.mp member with rfl | bound
    · exact Or.inr rfl
    · obtain ⟨min, max, rfl⟩ := bounds message bound
      exact Or.inr rfl
  | bounds | frame =>
    rw [mem_singleton.mp member]
    exact Or.inr rfl
  | gone =>
    rw [eq_of_mem_goneMessages member]
    exact Or.inr rfl

/-- Without a host no pane is announced. -/
theorem PaneMove.unannounced (move : PaneMove lz4 arrives false pane next messages) (unannounced : pane.announced = false) :
    next.announced = false := by
  cases move with
  | quiet _ same | commit _ same | expire _ same => rwa [same]
  | announce isReady | frame isReady | idle isReady => cases isReady
  | bounds announced => cases unannounced.symm.trans announced
  | gone _ gone => exact gone

end PaneMove

namespace App

/-- What a connection was told. -/
def log (app : App) (generation : Nat) : List Entry :=
  (app.sent.filter fun sent => sent.generation = generation).map fun sent => (sent.message, sent.source)

section Log

variable {app : App} {link : HostLink} {messages : List Entry} {generation : Nat}

theorem log_sendAll (isHost : app.host = some link) :
    (app.sendAll messages).log generation = if link.generation = generation then app.log generation ++ messages else app.log generation := by
  have added : (List.filter (fun sent => decide (sent.generation = generation))
      (messages.map fun (message, source) => (⟨link.generation, message, source⟩ : Sent))).map (fun sent => (sent.message, sent.source)) =
      if link.generation = generation then messages else [] := by
    rw [filter_map, map_map]
    split_ifs with current
    · rw [filter_eq_self.mpr (by simp [current])]
      exact map_id messages
    · rw [filter_eq_nil_iff.mpr (by simp [current])]
      rfl
  rw [sendAll, isHost]
  simp only [log, filter_append, map_append, added]
  split_ifs
  · rfl
  · exact append_nil _

theorem log_sendAll_of_none (isHost : app.host = none) : (app.sendAll messages).log generation = app.log generation := by
  rw [sendAll, isHost]

theorem generation_of_sendAll {sent : Sent} (member : sent ∈ (app.sendAll messages).sent) :
    sent ∈ app.sent ∨ ∃ link, app.host = some link ∧ sent.generation = link.generation := by
  cases isHost : app.host with
  | none =>
    rw [sendAll, isHost] at member
    exact Or.inl member
  | some link =>
    rw [sendAll, isHost] at member
    rcases mem_append.mp member with old | new
    · exact Or.inl old
    · obtain ⟨message, -, rfl⟩ := mem_map.mp new
      exact Or.inr ⟨link, rfl, rfl⟩

end Log

/-- What a connection was told stays told. -/
theorem log_of_moves {lz4 : Lz4} {arrives : Pixels → Prop} {app next : App} (moves : Moves lz4 arrives app next) (generation : Nat) :
    app.log generation <+: next.log generation := by
  have sending : ∀ (app : App) messages, app.log generation <+: (app.sendAll messages).log generation := by
    intro app messages
    rcases Option.eq_none_or_eq_some app.host with isHost | ⟨link, isHost⟩
    · have unchanged := @log_sendAll_of_none app messages generation isHost
      exact unchanged ▸ prefix_rfl
    · rw [log_sendAll isHost]
      split_ifs
      · exact prefix_append _ _
      · exact prefix_rfl
  induction moves with
  | refl => exact prefix_rfl
  | @tail middle _ _ move ih =>
    refine ih.trans ?_
    cases move with
    | @pane index _ changed messages _ _ => exact sending (middle.setPane index changed) messages
    | @remove index pane _ => exact sending { middle with panes := middle.panes.eraseIdx index } (goneMessages pane)
    | aside => exact sending middle _
    | add | accept | connect | ready | detach | hangUp => exact prefix_rfl

section Keeping

variable {lz4 : Lz4} {arrives : Pixels → Prop} {holds : Pane → Prop} {told : Pane → List Entry → Prop} {lawful : List Entry → Prop}

/-- What a single move must keep: something of every pane, how an announced pane stands to the log of its connection, and
what such a log is like. -/
structure Stable (lz4 : Lz4) (arrives : Pixels → Prop) (holds : Pane → Prop) (told : Pane → List Entry → Prop)
    (lawful : List Entry → Prop) : Prop where
  created : ∀ id, holds { id }
  detached : ∀ pane, holds pane → holds (detach pane)
  moved : ∀ {ready pane next messages}, PaneMove lz4 arrives ready pane next messages → holds pane → holds next
  tells : ∀ {ready pane next messages log}, PaneMove lz4 arrives ready pane next messages → holds pane → lawful log →
    (pane.announced = true → told pane log) → next.announced = true → told next (log ++ messages)
  speaks : ∀ {ready pane next messages log}, PaneMove lz4 arrives ready pane next messages → holds pane → lawful log →
    (pane.announced = true → told pane log) → lawful (log ++ messages)
  others : ∀ {pane log messages}, (∀ message ∈ messages, message.1.window ≠ some pane.id) → told pane log → told pane (log ++ messages)
  aside : ∀ {log message}, message.aside = true → lawful log → lawful (log ++ [(message, none)])
  ends : ∀ {log} pane, lawful log → lawful (log ++ goneMessages pane)
  silent : lawful []

structure Keeping (holds : Pane → Prop) (told : Pane → List Entry → Prop) (lawful : List Entry → Prop) (app : App) : Prop where
  distinct : (app.panes.map Pane.id).Nodup
  numbered : ∀ pane ∈ app.panes, pane.id < app.nextWindowId
  known : ∀ sent ∈ app.sent, sent.generation ≤ app.generation
  current : ∀ link, app.host = some link → link.generation ≤ app.generation
  alone : app.host = none → ∀ pane ∈ app.panes, pane.announced = false
  holds : ∀ pane ∈ app.panes, holds pane
  told : ∀ link, app.host = some link → ∀ pane ∈ app.panes, pane.announced = true → told pane (app.log link.generation)
  lawful : ∀ generation, lawful (app.log generation)

variable {app next : App} {index : Nat} {pane other : Pane} {changed : Pane}

theorem id_ne_of_getElem? {place : Nat} (distinct : (app.panes.map Pane.id).Nodup) (found : app.panes[index]? = some pane)
    (isOther : app.panes[place]? = some other) (elsewhere : index ≠ place) : other.id ≠ pane.id := by
  intro same
  have inside : index < (app.panes.map Pane.id).length := by
    rw [length_map]
    exact (List.getElem?_eq_some_iff.mp found).1
  refine elsewhere ((getElem?_inj inside distinct).mp ?_)
  rw [getElem?_map, getElem?_map, found, isOther, Option.map_some, Option.map_some, same]

theorem mem_set_panes (member : other ∈ app.panes.set index changed) (distinct : (app.panes.map Pane.id).Nodup)
    (found : app.panes[index]? = some pane) : other = changed ∨ other ∈ app.panes ∧ other.id ≠ pane.id := by
  obtain ⟨place, isOther⟩ := getElem?_of_mem member
  rw [getElem?_set] at isOther
  split_ifs at isOther with here inside
  · exact Or.inl (Option.some.inj isOther).symm
  · exact Or.inr ⟨mem_of_getElem? isOther, id_ne_of_getElem? distinct found isOther here⟩

theorem ids_setPane (found : app.panes[index]? = some pane) (same : changed.id = pane.id) :
    (app.panes.set index changed).map Pane.id = app.panes.map Pane.id := by
  rw [map_set, same]
  refine ext_getElem? fun place => ?_
  rw [getElem?_set]
  split_ifs with here inside
  · rw [← here, getElem?_map, found]
    rfl
  · rw [getElem?_eq_none (by omega)]
  · rfl

variable {messages : List Entry}

/-- A pane as it may be once the messages are said. -/
structure Stands (holds : Pane → Prop) (told : Pane → List Entry → Prop) (app : App) (messages : List Entry) (pane : Pane) :
    Prop where
  numbered : pane.id < app.nextWindowId
  alone : app.host = none → pane.announced = false
  holds : holds pane
  told : ∀ link, app.host = some link → pane.announced = true → told pane (app.log link.generation ++ messages)

section

variable (stable : Stable lz4 arrives holds told lawful) (keeping : app.Keeping holds told lawful)
include keeping

/-- It is enough to look at the panes and at the connection that the messages go to. -/
theorem Keeping.say {panes : List Pane} (distinct : (panes.map Pane.id).Nodup)
    (each : ∀ other ∈ panes, app.Stands holds told messages other)
    (speaks : ∀ link, app.host = some link → lawful (app.log link.generation ++ messages)) :
    ({ app with panes }.sendAll messages).Keeping holds told lawful where
  distinct := by rwa [panes_sendAll]
  numbered := by
    rw [panes_sendAll, nextWindowId_sendAll]
    exact fun other member => (each other member).numbered
  known := by
    rw [generation_sendAll]
    intro sent member
    rcases generation_of_sendAll member with old | ⟨link, isHost, isLink⟩
    · exact keeping.known sent old
    · exact isLink ▸ keeping.current link isHost
  current := by
    rw [host_sendAll, generation_sendAll]
    exact keeping.current
  alone := by
    rw [host_sendAll, panes_sendAll]
    exact fun isHost other member => (each other member).alone isHost
  holds := by
    rw [panes_sendAll]
    exact fun other member => (each other member).holds
  told := by
    rw [host_sendAll, panes_sendAll]
    intro link isHost other member announced
    rw [log_sendAll isHost, if_pos rfl]
    exact (each other member).told link isHost announced
  lawful generation := by
    rcases Option.eq_none_or_eq_some app.host with isHost | ⟨link, isHost⟩
    · rw [log_sendAll_of_none (show ({ app with panes } : App).host = none from isHost)]
      exact keeping.lawful generation
    · rw [log_sendAll (show ({ app with panes } : App).host = some link from isHost)]
      split_ifs with isCurrent
      · exact isCurrent ▸ speaks link isHost
      · exact keeping.lawful generation

include stable

theorem Keeping.stands (member : other ∈ app.panes) (elsewhere : ∀ message ∈ messages, message.1.window ≠ some other.id) :
    app.Stands holds told messages other where
  numbered := keeping.numbered other member
  alone isHost := keeping.alone isHost other member
  holds := keeping.holds other member
  told link isHost announced := stable.others elsewhere (keeping.told link isHost other member announced)

/-- What a move of a pane keeps. -/
theorem Keeping.ofPane (found : app.panes[index]? = some pane)
    (move : PaneMove lz4 arrives app.readyHost.isSome pane changed messages) :
    ((app.setPane index changed).sendAll messages).Keeping holds told lawful := by
  have member := mem_of_getElem? found
  have isHolding := keeping.holds pane member
  have same := move.id_eq
  refine keeping.say ((ids_setPane found same).symm ▸ keeping.distinct) (fun other inSet => ?_) fun link isHost =>
    stable.speaks move isHolding (keeping.lawful _) (keeping.told link isHost pane member)
  rcases mem_set_panes inSet keeping.distinct found with rfl | ⟨inPanes, differ⟩
  · exact {
      numbered := same.symm ▸ keeping.numbered pane member
      alone := fun isHost => by
        have unready : app.readyHost.isSome = false := by
          rw [readyHost, isHost]
          rfl
        exact PaneMove.unannounced (unready ▸ move) (keeping.alone isHost pane member)
      holds := stable.moved move isHolding
      told := fun link isHost announced =>
        stable.tells move isHolding (keeping.lawful _) (keeping.told link isHost pane member) announced }
  · refine keeping.stands stable inPanes fun message inMessages isOther => ?_
    rcases move.window inMessages with none | isPane
    · cases none.symm.trans isOther
    · exact differ (Option.some.inj (isOther.symm.trans isPane))

/-- What every move keeps. -/
theorem Keeping.move (move : Move lz4 arrives app next) : next.Keeping holds told lawful := by
  cases move with
  | pane found move => exact keeping.ofPane stable found move
  | add =>
    exact {
      distinct := by
        show ((app.panes ++ [_]).map Pane.id).Nodup
        rw [map_append, nodup_append]
        refine ⟨keeping.distinct, by simp, ?_⟩
        intro id member other isNew same
        obtain ⟨pane, inPanes, rfl⟩ := mem_map.mp member
        rw [map_cons, map_nil, mem_singleton] at isNew
        exact absurd (same.trans isNew) (Nat.ne_of_lt (keeping.numbered pane inPanes))
      numbered := forall_mem_append.mpr
        ⟨fun pane old => Nat.lt_succ_of_lt (keeping.numbered pane old), forall_mem_singleton.mpr (Nat.lt_succ_self _)⟩
      known := keeping.known
      current := keeping.current
      alone := fun isHost => forall_mem_append.mpr ⟨keeping.alone isHost, forall_mem_singleton.mpr rfl⟩
      holds := forall_mem_append.mpr ⟨keeping.holds, forall_mem_singleton.mpr (stable.created _)⟩
      told := fun link isHost => forall_mem_append.mpr
        ⟨keeping.told link isHost, forall_mem_singleton.mpr fun announced => by cases announced⟩
      lawful := keeping.lawful }
  | @remove index pane found =>
    refine keeping.say (keeping.distinct.sublist ((eraseIdx_sublist _ _).map _)) (fun other member => ?_)
      fun link isHost => stable.ends pane (keeping.lawful _)
    obtain ⟨place, elsewhere, isOther⟩ := mem_eraseIdx_iff_getElem?.mp member
    have differ := id_ne_of_getElem? keeping.distinct found isOther elsewhere.symm
    refine keeping.stands stable (mem_of_getElem? isOther) fun message inMessages isOther => differ ?_
    rw [eq_of_mem_goneMessages inMessages] at isOther
    exact (Option.some.inj isOther).symm
  | accept =>
    exact { keeping with
      known := fun sent member => Nat.le_succ_of_le (keeping.known sent member)
      current := fun link isHost => Nat.le_succ_of_le (keeping.current link isHost) }
  | @connect link isHost fresh =>
    exact { keeping with
      known := fun sent member => Nat.le_succ_of_le (keeping.known sent member)
      current := by
        rintro other isOther
        obtain rfl := Option.some.inj isOther
        exact fresh.le
      alone := fun isNone => by cases isNone
      told := by
        rintro other isOther pane member announced
        cases (keeping.alone isHost pane member).symm.trans announced }
  | @ready link ready isHost same isReady =>
    exact { keeping with
      current := by
        rintro other isOther
        obtain rfl := Option.some.inj isOther
        exact same ▸ keeping.current link isHost
      alone := fun isNone => by cases isNone
      told := by
        rintro other isOther pane member announced
        obtain rfl := Option.some.inj isOther
        exact same ▸ keeping.told link isHost pane member announced }
  | @aside message aside =>
    exact keeping.say keeping.distinct
      (fun pane member => keeping.stands stable member (others_of_aside (forall_mem_singleton.mpr aside) pane.id))
      fun link isHost => stable.aside aside (keeping.lawful _)
  | detach =>
    exact {
      distinct := by
        rw [map_map]
        exact keeping.distinct
      numbered := forall_mem_map.mpr keeping.numbered
      known := keeping.known
      current := fun _ isHost => by cases isHost
      alone := fun _ => forall_mem_map.mpr fun _ _ => rfl
      holds := forall_mem_map.mpr fun pane member => stable.detached pane (keeping.holds pane member)
      told := fun _ isHost => by cases isHost
      lawful := keeping.lawful }
  | hangUp unannounced =>
    exact { keeping with
      current := fun _ isHost => by cases isHost
      alone := fun _ => unannounced
      told := fun _ isHost => by cases isHost }

theorem Keeping.moves (moves : Moves lz4 arrives app next) : next.Keeping holds told lawful := by
  induction moves with
  | refl => exact keeping
  | tail _ move ih => exact ih.move stable move

end

theorem Keeping.initial (stable : Stable lz4 arrives holds told lawful) : ({} : App).Keeping holds told lawful where
  distinct := nodup_nil
  numbered := by simp
  known := by simp
  current := by simp
  alone := by simp
  holds := by simp
  told := by simp
  lawful _ := stable.silent

end Keeping

end App

end Index.Panes
