import Gix.CorruptCommitGraph
import Gix.TopoWalkResult
import Gix.ObjectCountingResult
import Gix.TreeEditorLookups
import Gix.ThinPackResult
import Gix.RefSwap
import Gix.RefLookupResult
import Gix.TreeObject
import Gix.MergeBaseResult
import Gix.MultiIndexResult
import Gix.CommitSize
import Gix.DeltaTraverseResult
import Gix.PacketLinePeeking
import Gix.PacketLineWriter
import Gix.PackDecodeRuns
import Gix.RefSpecResult
import Gix.RefSpecWrite
import Gix.ConfigLossless
import Gix.SlotMapResult
import Gix.CredentialContext
import Gix.ReferenceSanitizeResult
import Gix.HandshakeRefsResult
import Gix.PathComponentResult
import Gix.PathStack
import Gix.MailmapResult
import Gix.IndexFromTreeResult
import Gix.ConfigIncludesResult
import Gix.AttributeMacros
import Gix.EolConversion
import Gix.IdentKeyword
import Gix.LooseRefs
