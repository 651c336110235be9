import IronSafe.Bytes
import IronSafe.BigEndian
import IronSafe.RaggedTree
import IronSafe.PowerTwo
import IronSafe.BlockStream
import IronSafe.MerkleList
import IronSafe.MerkleTree
import IronSafe.MerkleAppend
import IronSafe.MerkleVerify
import IronSafe.MerkleReach
import IronSafe.MerkleWalk
import IronSafe.MerkleSerialize
import IronSafe.MerkleImage
import IronSafe.MerkleCapacity
import IronSafe.MerkleVector
import IronSafe.MerkleRestart
import IronSafe.Sha
import IronSafe.ShaSpec
import IronSafe.ShaStream
import IronSafe.ShaRuns
import IronSafe.MerkleHash
import IronSafe.PageCipher
import IronSafe.PageSeal
import IronSafe.PageRuns
import IronSafe.PageCodec
import IronSafe.PageFreshness
import IronSafe.PageOutcomes
import IronSafe.PageHostile
import IronSafe.PageRestart
import IronSafe.KeyMaterial
import IronSafe.CodecKeys
import IronSafe.CodecKeyRuns
import IronSafe.CodecRekey
import IronSafe.CodecReopen
import IronSafe.PacketCodec
import IronSafe.Frames
import IronSafe.RecordFrames
import IronSafe.Transfer
import IronSafe.StatementBuffers
import IronSafe.HostInsert
import IronSafe.HostTable
import IronSafe.RecordVarint
import IronSafe.RecordMake
import IronSafe.RecordDecode
import IronSafe.RecordRoundtrip
import IronSafe.RecordZero
import IronSafe.Ring
import IronSafe.Pipeline
import IronSafe.PipelineStages
import IronSafe.PipelineSteps
import IronSafe.PipelinePackets
import IronSafe.PipelineHost
import IronSafe.PipelineFields
import IronSafe.PipelineDelivery
import IronSafe.PipelineWork
import IronSafe.PipelineProgress
import IronSafe.PipelineAnswer
import IronSafe.PipelineTable
import IronSafe.PipelineTruncation
import IronSafe.Greedy
import IronSafe.PipelineStream
import IronSafe.PipelineFeed
import IronSafe.Dict
import IronSafe.Text
import IronSafe.PolicyCompiler
import IronSafe.PolicyLanguage
import IronSafe.PolicyServer
import IronSafe.PolicyMeaning
import IronSafe.PolicyLog
import IronSafe.ExecutionLog
import IronSafe.PolicyReplies
import IronSafe.PolicyChecker
import IronSafe.PolicyLookup
import IronSafe.PolicyRewrite
