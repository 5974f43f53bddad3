import Lix.LexCompare
import Lix.ExceptSpec
import Lix.KeyCodec
import Lix.KeyCodecDecode
import Lix.KeyCodecOrder
import Lix.SortedWalk
import Lix.TrackedStateDiff
import Lix.TrackedStateMerge
import Lix.TrackedStateMergeSteps
import Lix.TrackedStateMergeSpec
import Lix.Ancestry
import Lix.CommitGraphWalker
import Lix.CommitGraphBestCommon
import Lix.CommitGraphWalkerSpec
import Lix.CommitGraphMergeBase
import Lix.CommitGraphMergeBaseSpec
import Lix.TextOrderKey
import Lix.TextDocument
import Lix.TextDocumentSpec
import Lix.BlobDelta
import Lix.BlobDeltaSpec
import Lix.CommitGraphReachable
import Lix.LayeredSearch
import Lix.CommitGraphReachableSpec
import Lix.TrackedStateMergePrefetch
import Lix.TextFileChanged
import Lix.TextLineMatching
import Lix.TextOrderAnchors
import Lix.TextRowSync
import Lix.TextFileChangedSpec
import Lix.JsonBlob
import Lix.JsonBlobSpec
import Lix.TextOrderKeySpec
import Lix.SortedMap
import Lix.JsonScalarIndex
import Lix.JsonScalarIndexSpec
import Lix.JsonScalarTracking
import Lix.JsonSemanticTracking
import Lix.JsonScalarRun
import Lix.Varint
import Lix.FrontCoding
import Lix.NodeCodec
import Lix.NodeCodecTail
import Lix.NodeCodecReaders
import Lix.NodeCodecInternal
import Lix.NodeCodecLeaf
import Lix.NodeCodecDirect
import Lix.Chunking
import Lix.Timestamp
import Lix.TreeBuild
import Lix.TreeLevels
import Lix.ValueCodec
import Lix.TreeTermination
