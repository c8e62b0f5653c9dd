import ArchiveCore.Framework.Feed
import ArchiveCore.Framework.Cursor
import ArchiveCore.Framework.Calls
import ArchiveCore.Framework.GuardedWalk
import ArchiveCore.Framework.Bisect
import ArchiveCore.Framework.StableSort
import ArchiveCore.Framework.Positioned
import ArchiveCore.Proofs.ResolveTree
import ArchiveCore.Proofs.Transparency
import ArchiveCore.Core.Images
import ArchiveCore.Core.Reassemble
import ArchiveCore.Core.Vfs
import ArchiveCore.Proofs.Members
import ArchiveCore.Proofs.Handles
import ArchiveCore.Proofs.Routes
import ArchiveCore.Proofs.SeekableCap
import ArchiveCore.Proofs.BackingStore
import ArchiveCore.Proofs.Extraction
import ArchiveCore.Proofs.PeelAgreement
import ArchiveCore.Proofs.Concat
import ArchiveCore.Proofs.SegmentNames
import ArchiveCore.Proofs.SplitRoundTrip
import ArchiveCore.Proofs.SegmentSets
import ArchiveCore.Proofs.SegmentTotal
import ArchiveCore.Proofs.StitchedReads
import ArchiveCore.Proofs.CorruptMembers
import ArchiveCore.Proofs.MemberIdentity
import ArchiveCore.Proofs.CappedCopies
import ArchiveCore.Proofs.CallerCap
import ArchiveCore.Proofs.WindowCursor
import ArchiveCore.Proofs.ConcatCursor
import ArchiveCore.Proofs.ConcatArithmetic
import ArchiveCore.Proofs.SegmentPlanning
import ArchiveCore.Proofs.Wrappers
import ArchiveCore.Proofs.CompressedTar
import ArchiveCore.Proofs.DirectoryEntries
import ArchiveCore.Proofs.FixedPoint
import ArchiveCore.Proofs.HeadPeek
import ArchiveCore.Proofs.TarAliases
import ArchiveCore.Proofs.VfsReads
import ArchiveCore.Proofs.VfsLayers
import ArchiveCore.Proofs.BoundedWork
import ArchiveCore.Proofs.PeelStep
import ArchiveCore.Proofs.PayloadFree
import ArchiveCore.Proofs.ErrorKinds
import ArchiveCore.Proofs.SegmentLanguages
import ArchiveCore.Proofs.SegmentReads
import ArchiveCore.Proofs.Sublayers
import ArchiveCore.Proofs.RaisedLimits
import ArchiveCore.Proofs.Footprint
import ArchiveCore.Proofs.VfsErrors
