import Index.Efx.JournalSoundness
import Index.Astlog.Negation
import Index.Astlog.OutputSafety
import Index.AstMerge.Agreement
import Index.AstMerge.OneSided
import Index.Sqlmerge.ThreeWay
import Index.Audio.Pings
import Index.Audio.Framing
import Index.Audio.History
import Index.Delta.Disjoint
import Index.Delta.Staged
import Index.Delta.Activation
import Index.Minecraft.Convergence
import Index.AstMerge.Subtree
import Index.Panes.Order
import Index.Panes.Streaming
import Index.DagRunner.ExitStatus
import Index.Plumb.Deadlock
import Index.Astlog.Stratification
import Index.Astlog.Termination
import Index.Audio.Election
import Index.Audio.Edits
import Index.Panes.Tearing
import Index.Ix2nix.Strings
import Index.Minecraft.Wire
import Index.Plumb.Capture
import Index.NixWebMonitor.Edges
import Index.NixKbuildUnit.Glob
import Index.CloneDetect.Jaccard
import Index.Vmkit.Blockdev
