import Index.Audio.Wire
import Index.Lib.Run

/-! # Reading frames between ticks

The gossip loop waits for its ticker and for the next message at once.  The read of a message takes bytes off the
stream as they come and keeps them to itself until the frame is complete.  When the ticker fires first, the read
is dropped with the bytes it has taken, and the next read begins in the middle of a frame. -/

namespace Index.Audio

open Index.Lib List

/-- How far `read_from` has come: in the length or, after an accepted length, in the body. -/
inductive Pending where
  | length (taken : Bytes)
  | body (length : Nat) (taken : Bytes)
deriving DecidableEq

/-- What polling a read gives. -/
inductive Progress where
  | waiting (pending : Pending)
  | message (message : Message)
  | failed (error : WireError)
deriving DecidableEq

section Read

variable (codec : HelloCodec)

/-- `read_exact(&mut body)` and the decoder; the second component is what stays on the stream. -/
def readBody (length : Nat) (taken available : Bytes) : Progress × Bytes :=
  let body := taken ++ available.take (length - taken.length)
  let rest := available.drop (length - taken.length)
  if body.length < length then (.waiting (.body length body), rest)
  else
    match Message.decode codec body with
    | .ok message => (.message message, rest)
    | .error error => (.failed error, rest)

/-- `Message::read_from`, polled with some bytes on the stream. -/
def readFrom : Pending → Bytes → Progress × Bytes
  | .length taken, available =>
    let bytes := taken ++ available.take (4 - taken.length)
    let rest := available.drop (4 - taken.length)
    if bytes.length < 4 then (.waiting (.length bytes), rest)
    else
      let length := leValue bytes
      if 1 ≤ length ∧ length ≤ maxFrameBytes then readBody codec length [] rest
      else (.failed (.lengthOutside length), rest)
  | .body length taken, available => readBody codec length taken available

end Read

/-- One side of a connection: the bytes that have come, whether more can come, the read that waits for a message,
the messages that were applied, and how the loop ended if it did. -/
structure Receiver where
  available : Bytes
  closed : Bool
  pending : Pending
  applied : List Message
  outcome : Option (Except WireError Unit)

inductive LinkEvent where
  | arrive (chunk : Bytes)
  | close
  | poll
  | tick
deriving DecidableEq

namespace Receiver

def start : Receiver := ⟨[], false, .length [], [], none⟩

/-- The read branch of the loop when it is polled. -/
def poll (codec : HelloCodec) (receiver : Receiver) : Receiver :=
  match readFrom codec receiver.pending receiver.available with
  | (.message message, rest) =>
    { receiver with available := rest, pending := .length [], applied := receiver.applied ++ [message] }
  | (.failed error, rest) => { receiver with available := rest, outcome := some (.error error) }
  | (.waiting pending, rest) =>
    let waiting := { receiver with available := rest, pending }
    -- the end of the stream ends the loop, and is an error only in a body
    if receiver.closed then
      match pending with
      | .length _ => { waiting with outcome := some (.ok ()) }
      | .body _ _ => { waiting with outcome := some (.error .unexpectedEof) }
    else waiting

def step (codec : HelloCodec) (receiver : Receiver) : LinkEvent → Option Receiver
  | .arrive chunk => if receiver.closed then none else some { receiver with available := receiver.available ++ chunk }
  | .close => if receiver.closed then none else some { receiver with closed := true }
  | .poll => some (if receiver.outcome.isSome then receiver else receiver.poll codec)
  | .tick => some (if receiver.outcome.isSome then receiver else { receiver with pending := .length [] })

end Receiver

/-- All bytes that come over a link. -/
def arrivals (events : List LinkEvent) : Bytes :=
  events.flatMap fun
    | .arrive chunk => chunk
    | _ => []

/-- A tick fires only when the read has taken nothing yet. -/
def Untorn (receiver : Receiver) : LinkEvent → Prop
  | .tick => receiver.pending = .length []
  | _ => True

instance (receiver : Receiver) : DecidablePred (Untorn receiver)
  | .tick => inferInstanceAs (Decidable (receiver.pending = .length []))
  | .arrive _ | .close | .poll => inferInstanceAs (Decidable True)

namespace Pending

/-- The bytes a read has taken off the stream. -/
def taken : Pending → Bytes
  | .length bytes => bytes
  | .body size bytes => leBytes 4 size ++ bytes

/-- A read that waits for more. -/
def Proper : Pending → Prop
  | .length bytes => bytes.length < 4
  | .body size bytes => (1 ≤ size ∧ size ≤ maxFrameBytes) ∧ bytes.length < size

end Pending

section Read

variable {codec : HelloCodec} {length : Nat}

theorem leValue_of_accepted (accepted : length ≤ maxFrameBytes) : leValue (leBytes 4 length) = length := by
  apply leValue_leBytes_of_lt
  rw [maxFrameBytes] at accepted
  omega

section

variable {taken : Bytes} (short : taken.length < length) (available : Bytes)
include short

theorem take_resume : taken ++ available.take (length - taken.length) = (taken ++ available).take length := by
  rw [take_append, take_of_length_le (Nat.le_of_lt short)]

theorem drop_resume : available.drop (length - taken.length) = (taken ++ available).drop length := by
  rw [drop_append, drop_eq_nil_of_le (Nat.le_of_lt short), nil_append]

/-- Resuming a body is reading it from the bytes taken so far. -/
theorem readBody_resume : readBody codec length taken available = readBody codec length [] (taken ++ available) := by
  simp only [readBody, take_resume short, drop_resume short, nil_append, length_nil, Nat.sub_zero]

end

/-- What `read_from` does with a stream from the beginning of a frame. -/
theorem readFrom_start (stream : Bytes) :
    readFrom codec (.length []) stream =
      if (stream.take 4).length < 4 then (.waiting (.length (stream.take 4)), stream.drop 4)
      else if 1 ≤ leValue (stream.take 4) ∧ leValue (stream.take 4) ≤ maxFrameBytes then
        readBody codec (leValue (stream.take 4)) [] (stream.drop 4)
      else (.failed (.lengthOutside (leValue (stream.take 4))), stream.drop 4) := rfl

theorem readFrom_accepted (accepted : 1 ≤ length ∧ length ≤ maxFrameBytes) (rest : Bytes) :
    readFrom codec (.length []) (leBytes 4 length ++ rest) = readBody codec length [] rest := by
  have width := length_leBytes 4 length
  rw [readFrom_start, take_left' width, drop_left' width, leValue_of_accepted accepted.2, width, if_neg (Nat.lt_irrefl 4),
    if_pos accepted]

/-- Resuming a read is reading the frame from its beginning: a read that is not dropped loses nothing. -/
theorem readFrom_resume {pending : Pending} (proper : pending.Proper) (available : Bytes) :
    readFrom codec pending available = readFrom codec (.length []) (pending.taken ++ available) := by
  cases pending with
  | length taken =>
    rw [readFrom_start]
    simp only [readFrom, Pending.taken, take_resume proper, drop_resume proper]
    rfl
  | body length taken =>
    obtain ⟨accepted, short⟩ := proper
    rw [Pending.taken, append_assoc, readFrom_accepted accepted]
    exact readBody_resume short available

variable {message : Message}

/-- While a frame has not come whole, a read takes all there is and waits. -/
theorem readFrom_partial {frame body : Bytes} (isFrame : Message.IsFrame codec message frame body) {stream toCome more : Bytes}
    (split : stream ++ toCome = frame ++ more) (short : stream.length < frame.length) :
    ∃ pending, readFrom codec (.length []) stream = (.waiting pending, []) ∧ pending.Proper ∧ pending.taken = stream := by
  have width := length_leBytes 4 body.length
  rw [isFrame.eq] at split short
  by_cases inLength : stream.length < 4
  · have whole : stream.take 4 = stream := take_of_length_le (Nat.le_of_lt inLength)
    have nothing : stream.drop 4 = [] := drop_eq_nil_of_le (Nat.le_of_lt inLength)
    rw [readFrom_start, whole, nothing, if_pos inLength]
    exact ⟨.length stream, rfl, inLength, rfl⟩
  · -- the first four bytes are the length of the frame
    obtain ⟨taken, rfl⟩ : leBytes 4 body.length <+: stream :=
      prefix_of_prefix_length_le ⟨_, (append_assoc ..).symm.trans split.symm⟩ (prefix_append stream toCome) (by omega)
    have short_body : taken.length < body.length := by simpa using short
    rw [readFrom_accepted isFrame.accepted]
    refine ⟨.body body.length taken, ?_, ⟨isFrame.accepted, short_body⟩, rfl⟩
    simp only [readBody, nil_append, length_nil, Nat.sub_zero,
      take_of_length_le (Nat.le_of_lt short_body), drop_eq_nil_of_le (Nat.le_of_lt short_body), if_pos short_body]

/-- A frame that has come whole is read and nothing behind it is. -/
theorem readFrom_frame {frame body : Bytes} (isFrame : Message.IsFrame codec message frame body) (rest : Bytes) :
    readFrom codec (.length []) (frame ++ rest) = (.message message, rest) := by
  rw [isFrame.eq, append_assoc, readFrom_accepted isFrame.accepted]
  simp [readBody, isFrame.decoded]

end Read

/-- A stream is the frames of some messages, one after the other. -/
inductive Frames (codec : HelloCodec) : List Message → Bytes → Prop
  | nil : Frames codec [] []
  | cons {message : Message} {messages : List Message} {frame body stream : Bytes}
      (isFrame : Message.IsFrame codec message frame body) (rest : Frames codec messages stream) :
      Frames codec (message :: messages) (frame ++ stream)

variable {codec : HelloCodec}

theorem Frames.eq_nil {stream : Bytes} (frames : Frames codec [] stream) : stream = [] := by
  cases frames
  rfl

theorem exists_of_encode_cons {message : Message} {messages : List Message} {encoded : List Bytes}
    (written : (message :: messages).mapM (Message.encode codec) = .ok encoded) :
    ∃ frame body others, Message.IsFrame codec message frame body ∧ messages.mapM (Message.encode codec) = .ok others ∧
      encoded = frame :: others := by
  rw [mapM_cons] at written
  obtain ⟨frame, first, written⟩ := bind_eq_ok.mp written
  obtain ⟨others, rest, result⟩ := bind_eq_ok.mp written
  obtain ⟨body, isFrame⟩ := Message.isFrame_of_encode first
  exact ⟨frame, body, others, isFrame, rest, (Except.ok.inj result).symm⟩

theorem frames_of_encode {messages : List Message} {encoded : List Bytes}
    (written : messages.mapM (Message.encode codec) = .ok encoded) : Frames codec messages encoded.flatten := by
  induction messages generalizing encoded with
  | nil =>
    obtain rfl := Except.ok.inj written
    exact .nil
  | cons message messages ih =>
    obtain ⟨frame, body, others, isFrame, rest, rfl⟩ := exists_of_encode_cons written
    exact .cons isFrame (ih rest)

/-- What a receiver has taken and what is still to come are the frames of the messages it has not applied. -/
structure Framed (codec : HelloCodec) (messages rest : List Message) (toCome : Bytes) (receiver : Receiver) : Prop where
  applied : messages = receiver.applied ++ rest
  frames : Frames codec rest (receiver.pending.taken ++ receiver.available ++ toCome)
  proper : receiver.pending.Proper
  closed : receiver.closed → toCome = []
  outcome : receiver.outcome = none ∨ receiver.outcome = some (.ok ()) ∧ rest = []

namespace Receiver

variable {codec : HelloCodec} {receiver : Receiver} {left : Bytes}

theorem poll_message {message : Message}
    (read : readFrom codec receiver.pending receiver.available = (.message message, left)) :
    receiver.poll codec =
      { receiver with available := left, pending := .length [], applied := receiver.applied ++ [message] } := by
  rw [poll, read]

theorem poll_waiting {pending : Pending} (stays_open : receiver.closed = false)
    (read : readFrom codec receiver.pending receiver.available = (.waiting pending, left)) :
    receiver.poll codec = { receiver with available := left, pending } := by
  rw [poll, read]
  exact if_neg (Bool.not_eq_true _ ▸ stays_open)

theorem poll_ended {taken : Bytes} (closed : receiver.closed = true)
    (read : readFrom codec receiver.pending receiver.available = (.waiting (.length taken), left)) :
    receiver.poll codec = { receiver with available := left, pending := .length taken, outcome := some (.ok ()) } := by
  rw [poll, read]
  exact if_pos closed

theorem closed_poll (codec : HelloCodec) (receiver : Receiver) : (receiver.poll codec).closed = receiver.closed := by
  unfold poll
  repeat' split
  all_goals rfl

end Receiver

section Run

variable {codec : HelloCodec} {messages rest : List Message} {toCome : Bytes} {receiver : Receiver}

/-- A poll keeps the frames, and applies a message if one is left and everything has come. -/
theorem Framed.poll (framed : Framed codec messages rest toCome receiver) (running : receiver.outcome = none) :
    ∃ left, Framed codec messages left toCome (receiver.poll codec) ∧ (toCome = [] → left.length ≤ rest.length - 1) := by
  have frames := framed.frames
  have resume : readFrom codec receiver.pending receiver.available = _ := readFrom_resume framed.proper receiver.available
  generalize stream_eq : receiver.pending.taken ++ receiver.available = stream at frames resume
  generalize all_eq : stream ++ toCome = all at frames
  cases frames with
  | nil =>
    obtain ⟨rfl, rfl⟩ := append_eq_nil_iff.mp all_eq
    have waiting : readFrom codec receiver.pending receiver.available = (.waiting (.length []), []) := resume
    refine ⟨[], ?_, fun _ => Nat.zero_le _⟩
    cases closed : receiver.closed with
    | true =>
      rw [Receiver.poll_ended closed waiting]
      exact ⟨framed.applied, .nil, Nat.zero_lt_succ 3, fun _ => rfl, Or.inr ⟨rfl, rfl⟩⟩
    | false =>
      rw [Receiver.poll_waiting closed waiting]
      exact ⟨framed.applied, .nil, Nat.zero_lt_succ 3, fun _ => rfl, Or.inl running⟩
  | @cons message others frame body more isFrame frames =>
    by_cases short : stream.length < frame.length
    · obtain ⟨pending, waiting, proper, taken⟩ := readFrom_partial isFrame all_eq short
      -- the frame is cut, so something is still to come
      have something : toCome ≠ [] := by
        intro nothing
        rw [nothing, append_nil] at all_eq
        rw [all_eq, length_append] at short
        omega
      have stays_open : receiver.closed = false := by
        by_contra closed
        exact something (framed.closed (Bool.eq_true_of_not_eq_false closed))
      refine ⟨message :: others, ?_, fun nothing => absurd nothing something⟩
      rw [Receiver.poll_waiting stays_open (resume.trans waiting)]
      refine ⟨framed.applied, ?_, proper, framed.closed, Or.inl running⟩
      rw [taken, append_nil, all_eq]
      exact .cons isFrame frames
    · obtain ⟨left, rfl⟩ : frame <+: stream :=
        prefix_of_prefix_length_le ⟨more, rfl⟩ ⟨toCome, all_eq⟩ (Nat.le_of_not_lt short)
      rw [append_assoc, append_cancel_left_eq] at all_eq
      subst all_eq
      refine ⟨others, ?_, fun _ => Nat.le_refl _⟩
      rw [Receiver.poll_message (resume.trans (readFrom_frame isFrame left))]
      refine ⟨?_, frames, Nat.zero_lt_succ 3, framed.closed, Or.inl running⟩
      rw [framed.applied, append_assoc]
      rfl

/-- A step that loses no bytes keeps the frames. -/
theorem Framed.step {event : LinkEvent} {next : Receiver}
    (framed : Framed codec messages rest (arrivals [event] ++ toCome) receiver)
    (untorn : Untorn receiver event) (stepped : receiver.step codec event = some next)
    (ended : next.closed → toCome = []) : ∃ left, Framed codec messages left toCome next := by
  cases event with
  | arrive chunk =>
    rw [Receiver.step] at stepped
    split at stepped <;> cases stepped
    refine ⟨rest, framed.applied, ?_, framed.proper, ended, framed.outcome⟩
    simpa [arrivals] using framed.frames
  | close =>
    rw [Receiver.step] at stepped
    split at stepped <;> cases stepped
    exact ⟨rest, framed.applied, framed.frames, framed.proper, ended, framed.outcome⟩
  | poll =>
    obtain rfl := Option.some.inj stepped
    split
    · exact ⟨rest, framed⟩
    case isFalse running =>
      obtain ⟨left, polled, -⟩ := framed.poll (Option.not_isSome_iff_eq_none.mp running)
      exact ⟨left, polled⟩
  | tick =>
    obtain rfl := Option.some.inj stepped
    split
    · exact ⟨rest, framed⟩
    · have nothing : receiver.pending = .length [] := untorn
      rw [← nothing]
      exact ⟨rest, framed⟩

variable {events : List LinkEvent} {final : Receiver}

/-- Nothing comes over a link after its end. -/
theorem arrivals_of_closed (closed : receiver.closed) (ran : run (Receiver.step codec) receiver events = some final) :
    arrivals events = [] := by
  induction events generalizing receiver with
  | nil => rfl
  | cons event events ih =>
    obtain ⟨next, stepped, ran⟩ := run_cons.mp ran
    cases event with
    | arrive chunk | close => simp [Receiver.step, closed] at stepped
    | poll | tick =>
      apply ih _ ran
      split <;> simp [closed, Receiver.closed_poll]

theorem Framed.run (framed : Framed codec messages rest (arrivals events) receiver)
    (untorn : Along (Receiver.step codec) Untorn receiver events)
    (ran : Lib.run (Receiver.step codec) receiver events = some final) : ∃ left, Framed codec messages left [] final := by
  induction events generalizing receiver rest with
  | nil =>
    obtain rfl := Option.some.inj ran
    exact ⟨rest, framed⟩
  | cons event events ih =>
    obtain ⟨next, stepped, ran⟩ := run_cons.mp ran
    have split : arrivals (event :: events) = arrivals [event] ++ arrivals events := by simp [arrivals]
    rw [split] at framed
    obtain ⟨left, framed⟩ := framed.step untorn.1 stepped fun closed => arrivals_of_closed closed ran
    exact ih framed (untorn.2 next stepped) ran

/-- As many polls as messages are left apply them all. -/
theorem Framed.polls {count : Nat} (framed : Framed codec messages rest [] receiver) (enough : rest.length ≤ count)
    (ran : Lib.run (Receiver.step codec) receiver (List.replicate count .poll) = some final) :
    Framed codec messages [] [] final := by
  induction count generalizing receiver rest with
  | zero =>
    obtain rfl := Option.some.inj ran
    obtain rfl := length_eq_zero_iff.mp (Nat.le_zero.mp enough)
    exact framed
  | succ count ih =>
    obtain ⟨next, stepped, ran⟩ := run_cons.mp ran
    obtain rfl := Option.some.inj stepped
    split at ran
    case isTrue stopped =>
      obtain running | ⟨-, rfl⟩ := framed.outcome
      · simp [running] at stopped
      · exact ih framed (Nat.zero_le count) ran
    case isFalse running =>
      obtain ⟨left, polled, fewer⟩ := framed.poll (Option.not_isSome_iff_eq_none.mp running)
      have := fewer rfl
      exact ih polled (by omega) ran

/-- A codec that knows one greeting. -/
def oneGreeting : HelloCodec where
  toVec hello := if hello = ⟨1, 7000, 0, 48000⟩ then .ok [123, 125] else .error .json
  fromSlice bytes := if bytes = [123, 125] then .ok ⟨1, 7000, 0, 48000⟩ else .error .json
  lawful := by
    intro hello bytes written
    split at written
    case isTrue same =>
      obtain rfl := Except.ok.inj written
      rw [if_pos rfl, same]
    case isFalse => cases written

/-- A greeting and an update in three chunks, with a tick between the two frames and a poll in the middle of each. -/
def tickBetweenFrames : List LinkEvent :=
  [.tick, .arrive [3, 0], .poll, .arrive [0, 0, 1, 123, 125], .poll, .tick, .arrive [2, 0, 0, 0, 2, 7], .poll]

end Run

/-! ## A stream that ends -/

section Cut

variable {codec : HelloCodec} {messages : List Message} {frames : List Bytes} {stream : Bytes} {reads : Nat}

/-- `read_from` again and again on a stream that ends: the messages, and how the last read ended, if it is not left out.
The end of the stream is an error only in a body. -/
def readMany (codec : HelloCodec) : Nat → Bytes → List Message × Option (Except WireError Unit)
  | 0, _ => ([], none)
  | reads + 1, stream =>
    match readFrom codec (.length []) stream with
    | (.message message, rest) => ((readMany codec reads rest).map (message :: ·) id)
    | (.failed error, _) => ([], some (.error error))
    | (.waiting (.length _), _) => ([], some (.ok ()))
    | (.waiting (.body _ _), _) => ([], some (.error .unexpectedEof))

/-- The frames that lie wholly inside a number of bytes, and how many bytes of the next one do. -/
def cutAt : List Bytes → Nat → Nat × Nat
  | [], _ => (0, 0)
  | frame :: frames, count =>
    if frame.length ≤ count then (cutAt frames (count - frame.length)).map (· + 1) id else (0, count)

theorem readMany_of_cut (written : messages.mapM (Message.encode codec) = .ok frames) (cut : stream <+: frames.flatten)
    (enough : messages.length < reads) :
    readMany codec reads stream = (messages.take (cutAt frames stream.length).1,
      some (if (cutAt frames stream.length).2 < 4 then .ok () else .error .unexpectedEof)) := by
  obtain ⟨toCome, whole⟩ := cut
  induction messages generalizing frames stream reads with
  | nil =>
    obtain rfl := Except.ok.inj written
    obtain ⟨rfl, -⟩ := append_eq_nil_iff.mp whole
    obtain ⟨reads, rfl⟩ := Nat.exists_eq_succ_of_ne_zero enough.ne'
    rfl
  | cons message messages ih =>
    obtain ⟨frame, body, others, isFrame, rest, rfl⟩ := exists_of_encode_cons written
    obtain ⟨reads, rfl⟩ := Nat.exists_eq_succ_of_ne_zero (Nat.ne_zero_of_lt enough)
    rw [flatten_cons] at whole
    rw [readMany, cutAt]
    by_cases inside : frame.length ≤ stream.length
    · obtain ⟨left, rfl⟩ : frame <+: stream := prefix_of_prefix_length_le ⟨_, rfl⟩ ⟨_, whole⟩ inside
      rw [append_assoc, append_cancel_left_eq] at whole
      rw [readFrom_frame isFrame, if_pos inside, length_append, Nat.add_sub_cancel_left]
      simp [ih rest (Nat.lt_of_succ_lt_succ enough) whole]
    · obtain ⟨pending, read, proper, taken⟩ := readFrom_partial isFrame whole (Nat.lt_of_not_le inside)
      rw [read, if_neg inside]
      cases pending with
      | length bytes => simp [← taken, Pending.taken, show bytes.length < 4 from proper]
      | body length bytes => simp [← taken, Pending.taken, length_leBytes]

/-- The reads give the messages whose frames have come whole, and tell an end between frames from one inside a frame, if
the stream does not end inside a length. -/
theorem readMany_tells_cut_iff (written : messages.mapM (Message.encode codec) = .ok frames) (cut : stream <+: frames.flatten)
    (enough : messages.length < reads) :
    (∃ outcome, readMany codec reads stream = (messages.take (cutAt frames stream.length).1, some outcome) ∧
        (outcome = .ok () ↔ (cutAt frames stream.length).2 = 0)) ↔
      (cutAt frames stream.length).2 = 0 ∨ 4 ≤ (cutAt frames stream.length).2 := by
  simp only [readMany_of_cut written cut enough, Prod.mk.injEq, true_and, Option.some.injEq, exists_eq_left']
  split_ifs with short
  · simp only [true_iff]
    omega
  · simp only [false_iff]
    omega

theorem readMany_tells_cut_in_body :
    ∃ outcome, readMany oneGreeting 2 [2, 0, 0, 0, 2] = ([], some outcome) ∧ (outcome = .ok () ↔ 5 = 0) := by
  have written : [Message.scoreUpdate [7]].mapM (Message.encode oneGreeting) = .ok [[2, 0, 0, 0, 2, 7]] := by decide +kernel
  exact (readMany_tells_cut_iff written (by decide) (Nat.lt_succ_self 1)).mpr (by decide)

theorem readMany_cut_in_length : Message.encode oneGreeting (.scoreUpdate [7]) = .ok [2, 0, 0, 0, 2, 7] ∧
    readMany oneGreeting 2 [2, 0] = ([], some (.ok ())) ∧ cutAt [[2, 0, 0, 0, 2, 7]] 2 = (0, 2) := by
  decide +kernel

end Cut

end Index.Audio
