import Index.Panes.Frame

/-! # The wire protocol

The messages between the compositor of the guest and the host, as far as the windows are concerned. -/

namespace Index.Panes

abbrev WindowId := Nat

def versionMajor : Nat := 1

def versionMinor : Nat := 3

/-- The minor version since which the host knows `windowScale`. -/
def minorWindowScale : Nat := 3

inductive ToHost where
  | hello (major minor : Nat)
  | windowNew (id : WindowId) (title appId : String) (width height scale : Nat)
  | windowTitle (id : WindowId) (title : String)
  | windowMinMax (id : WindowId) (min max : Option (Nat × Nat))
  | windowFrame (id : WindowId) (seq : Nat) (frame : EncodedFrame)
  | windowGone (id : WindowId)
  | pong (nonce : Nat)
  | windowScale (id : WindowId) (scale : Nat)
deriving DecidableEq

inductive ToGuest where
  | hello (major minor : Nat) (encodings : List Encoding)
  | ack (id : WindowId) (seq : Nat)
  | ping (nonce : Nat)
  /-- Requests that reach the client or the seat only. -/
  | other
deriving DecidableEq

end Index.Panes
