import Index.Audio.Clock
import Index.Lib.Rust

/-! # A node of a session

A node keeps the peers it has connections to and follows the smallest of them if that is smaller than itself.
It pings the leader it follows and publishes a clock from the replies; a node without a smaller peer leads. -/

namespace Index.Audio

open Index.Lib

/-- What a peer says of itself when a connection starts. -/
structure Hello where
  peerId : PeerId
  udpPort : Nat
  epochMicros : Int
  sampleRate : Nat
deriving DecidableEq

structure SocketAddr (Ip : Type) where
  ip : Ip
  port : Nat

structure Leader (Ip : Type) where
  peerId : PeerId
  epochMicros : Int
  pingAddr : SocketAddr Ip

structure PeerEntry (Ip : Type) where
  pingAddr : SocketAddr Ip
  epochMicros : Int
  connections : Nat

structure Node (Ip : Type) where
  peerId : PeerId
  peers : BTreeMap PeerId (PeerEntry Ip)
  leader : Option (Leader Ip)
  estimator : OffsetEstimator
  clock : SharedClock

namespace Node

variable {Ip : Type}

def spawn (peerId : PeerId) (now : Nat) : Node Ip := ⟨peerId, ∅, none, .new 16, .lead now⟩

/-- The table of peers after a `Hello`; the first one of a peer counts. -/
def register (node : Node Ip) (remote : Hello) (ip : Ip) : Node Ip :=
  let entry := (node.peers[remote.peerId]?).getD ⟨⟨ip, remote.udpPort⟩, remote.epochMicros, 0⟩
  { node with peers := node.peers.insert remote.peerId { entry with connections := entry.connections + 1 } }

/-- The table of peers after a connection ended. -/
def unregister (node : Node Ip) (remoteId : PeerId) : Node Ip :=
  match node.peers[remoteId]? with
  | none => node
  | some entry =>
    let connections := entry.connections - 1
    if connections = 0 then { node with peers := node.peers.erase remoteId }
    else { node with peers := node.peers.insert remoteId { entry with connections } }

/-- The smallest connected peer, if it is smaller than the node. -/
def nextLeader (node : Node Ip) : Option (Leader Ip) :=
  (node.peers.toList.head?.filter fun entry => entry.1 < node.peerId).map fun entry =>
    ⟨entry.1, entry.2.epochMicros, entry.2.pingAddr⟩

def elect (node : Node Ip) (now : Nat) : Node Ip :=
  let next := node.nextLeader
  if node.leader.map Leader.peerId = next.map Leader.peerId then node
  else
    let clock := match next with
      | some _ => node.clock
      | none => node.clock.adoptLead now
    { node with leader := next, estimator := node.estimator.clear, clock }

def peerConnected (node : Node Ip) (remote : Hello) (ip : Ip) (now : Nat) : Node Ip := (node.register remote ip).elect now

def peerDisconnected (node : Node Ip) (remoteId : PeerId) (now : Nat) : Node Ip := (node.unregister remoteId).elect now

/-- `fold_ping`, with the lock of the estimator. -/
def recordSample (node : Node Ip) (sample : PingSample) : Node Ip :=
  { node with estimator := node.estimator.record sample }

/-- `fold_ping`, with no lock: the offset it computed and the leader it read make the clock. -/
def publish (node : Node Ip) (offset : Int) (leader : Leader Ip) : Node Ip :=
  { node with clock := .follow offset leader.epochMicros }

/-- `fold_ping` when no other task comes in between. -/
def foldPing (node : Node Ip) (sample : PingSample) : Node Ip :=
  let recorded := node.recordSample sample
  match recorded.estimator.estimate, recorded.leader with
  | some offset, some leader => recorded.publish offset leader
  | _, _ => recorded

/-- An election that does not change the leader does nothing; one that does leaves no sample and keeps the
timeline. -/
theorem elect_cases (node : Node Ip) (now : Nat) :
    (node.leader.map Leader.peerId = node.nextLeader.map Leader.peerId ∧ node.elect now = node) ∨
      ∃ clock, clock.localEpochMicros = node.clock.localEpochMicros ∧
        node.elect now = { node with leader := node.nextLeader, estimator := node.estimator.clear, clock } := by
  by_cases same : node.leader.map Leader.peerId = node.nextLeader.map Leader.peerId
  · exact Or.inl ⟨same, if_pos same⟩
  · refine Or.inr ⟨_, ?_, if_neg same⟩
    split
    · rfl
    · exact node.clock.localEpochMicros_adoptLead now

/-- The end of a connection touches the table of peers only, and adds nothing to it. -/
theorem unregister_eq (node : Node Ip) (remoteId : PeerId) :
    ∃ peers : BTreeMap PeerId (PeerEntry Ip), node.unregister remoteId = { node with peers } ∧
      ∀ id : PeerId, ∀ entry ∈ peers[id]?, ∃ before ∈ node.peers[id]?, entry.epochMicros = before.epochMicros := by
  unfold Node.unregister
  split
  case h_1 => exact ⟨_, rfl, fun _ entry found => ⟨entry, found, rfl⟩⟩
  case h_2 entry known =>
    dsimp only
    split
    · refine ⟨_, rfl, fun id other found => ?_⟩
      rw [Option.mem_def, Std.ExtTreeMap.getElem?_erase] at found
      split at found
      · cases found
      · exact ⟨other, found, rfl⟩
    · refine ⟨_, rfl, fun id other found => ?_⟩
      rw [Option.mem_def, BTreeMap.getElem?_insert] at found
      split at found
      case isFalse => exact ⟨other, found, rfl⟩
      case isTrue same =>
        subst same
        obtain rfl := Option.some.inj found
        exact ⟨entry, known, rfl⟩

/-- What the node says of itself on a new connection. -/
def hello (node : Node Ip) (udpPort sampleRate : Nat) : Hello :=
  ⟨node.peerId, udpPort, node.clock.localEpochMicros, sampleRate⟩

end Node

end Index.Audio
