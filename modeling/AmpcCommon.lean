import AmpcCommon.Base.Outcome
import AmpcCommon.Base.SortedGroup
import AmpcCommon.Base.LittleEndian
import AmpcCommon.Base.Bytes
import AmpcCommon.Base.Transition
import AmpcCommon.Modifications.Modification
import AmpcCommon.Modifications.Recovery
import AmpcCommon.Modifications.Proofs.CompareProofs
import AmpcCommon.Modifications.Proofs.RecoveryProofs
import AmpcCommon.Wire.NetworkValue
import AmpcCommon.Wire.Ring48
import AmpcCommon.Wire.Proofs.CodecProofs
import AmpcCommon.Wire.Proofs.ParserProofs
import AmpcCommon.Wire.Proofs.DecoderProofs
import AmpcCommon.Galois.GaloisRing
import AmpcCommon.Galois.IrisVector
import AmpcCommon.Galois.Proofs.RingProofs
import AmpcCommon.Galois.Proofs.DotProductProofs
import AmpcCommon.Galois.Proofs.QuotientProofs
import AmpcCommon.Galois.Proofs.UnitProofs
import AmpcCommon.Galois.Shamir
import AmpcCommon.Galois.Proofs.EncoderProofs
import AmpcCommon.Base.UnitInterpolation
import AmpcCommon.Galois.Proofs.ReconstructProofs
import AmpcCommon.Galois.Proofs.SecrecyProofs
import AmpcCommon.Sessions.NetworkHandle
import AmpcCommon.Sessions.Proofs.AgreementProofs
import AmpcCommon.Workpool.JobTracker
import AmpcCommon.Workpool.Proofs.JobTrackerProofs
import AmpcCommon.Workpool.Connection
import AmpcCommon.Workpool.System
import AmpcCommon.Workpool.Proofs.ConnectionProofs
import AmpcCommon.Workpool.Proofs.ReconcileProofs
import AmpcCommon.Workpool.Proofs.ResponseProofs
import AmpcCommon.Base.Process
import AmpcCommon.Base.BitSum
import AmpcCommon.Protocol.Share
import AmpcCommon.Protocol.Session
import AmpcCommon.Protocol.Transpose
import AmpcCommon.Protocol.Binary
import AmpcCommon.Protocol.Ops
import AmpcCommon.Protocol.Shuffle
import AmpcCommon.Base.SingleBit
import AmpcCommon.Protocol.Transpose128
import AmpcCommon.Protocol.Proofs.TransposeProofs
import AmpcCommon.Protocol.Proofs.JointProofs
import AmpcCommon.Protocol.Proofs.GateProofs
import AmpcCommon.Protocol.Proofs.AdderProofs
import AmpcCommon.Protocol.Proofs.SplitProofs
import AmpcCommon.Protocol.Proofs.MsbProofs
import AmpcCommon.Protocol.Proofs.InjectProofs
import AmpcCommon.Protocol.Proofs.CircuitProofs
import AmpcCommon.Protocol.Proofs.LiftProofs
import AmpcCommon.Protocol.Proofs.PermutationProofs
import AmpcCommon.Protocol.Proofs.ShuffleProofs
import AmpcCommon.Protocol.Proofs.UniformProofs
import AmpcCommon.Protocol.Calls
import AmpcCommon.Protocol.Proofs.ReshareProofs
import AmpcCommon.Protocol.Proofs.LockstepProofs
import AmpcCommon.Protocol.Threshold
import AmpcCommon.Protocol.Proofs.OpeningProofs
import AmpcCommon.Protocol.Proofs.ThresholdProofs
import AmpcCommon.Protocol.Proofs.ComponentProofs
import AmpcCommon.Protocol.Proofs.Transpose128Proofs
import AmpcCommon.Modifications.Replay
import AmpcCommon.Modifications.Proofs.PlanProofs
import AmpcCommon.Modifications.Proofs.ReplayProofs
import AmpcCommon.Base.Cuts
import AmpcCommon.Base.Stream
import AmpcCommon.Base.Batch
import AmpcCommon.Base.ByteReader
import AmpcCommon.Channel.Striping
import AmpcCommon.Channel.Multiplexer
import AmpcCommon.Channel.Proofs.LengthProofs
import AmpcCommon.Channel.Proofs.StripingProofs
import AmpcCommon.Channel.Proofs.FifoProofs
import AmpcCommon.Channel.Proofs.MultiplexerProofs
import AmpcCommon.Channel.RingVec
import AmpcCommon.Channel.Proofs.RingVecProofs
import AmpcCommon.Workpool.Framing
import AmpcCommon.Workpool.Proofs.FramingProofs
import AmpcCommon.Workpool.Dispatch
import AmpcCommon.Workpool.Proofs.DispatchProofs
import AmpcCommon.Workpool.Proofs.SettleProofs
import AmpcCommon.Workpool.Proofs.SendFailedProofs
import AmpcCommon.Startup.Sqs
import AmpcCommon.Startup.Proofs.SqsProofs
import AmpcCommon.Sync.JobSync
import AmpcCommon.Sync.Proofs.JobSyncProofs
import AmpcCommon.Startup.Coordination
import AmpcCommon.Startup.Heartbeat
import AmpcCommon.Startup.Proofs.HeartbeatProofs
import AmpcCommon.Tcp.Handshake
import AmpcCommon.Tcp.Listener
import AmpcCommon.Tcp.Proofs.HandshakeProofs
import AmpcCommon.Tcp.Proofs.ListenerProofs
import AmpcCommon.Startup.Barriers
import AmpcCommon.Startup.Proofs.BarrierProofs
import AmpcCommon.Protocol.Opening
import AmpcCommon.Protocol.Proofs.SecretProofs
import AmpcCommon.Stats.Buckets
import AmpcCommon.Stats.Face
import AmpcCommon.Stats.Proofs.CountProofs
import AmpcCommon.Stats.Proofs.FaceProofs
import AmpcCommon.Base.GroupReduction
import AmpcCommon.Protocol.Distances
import AmpcCommon.Protocol.Proofs.DistanceProofs
import AmpcCommon.Base.Grid
import AmpcCommon.Stats.Buckets2d
import AmpcCommon.Base.KeyOrder
import AmpcCommon.Stats.Mapping
import AmpcCommon.Stats.Iris2d
import AmpcCommon.Stats.Proofs.HistogramProofs
import AmpcCommon.Stats.Proofs.Iris2dProofs
import AmpcCommon.Stats.Proofs.BucketProofs
import AmpcCommon.Protocol.Adders
import AmpcCommon.Protocol.Proofs.AdderVariantsProofs
import AmpcCommon.Protocol.PlainIds
import AmpcCommon.Protocol.Proofs.PlainIdsProofs
import AmpcCommon.Protocol.Nhd
import AmpcCommon.Protocol.Proofs.NhdProofs
import AmpcCommon.Protocol.AndProduct
import AmpcCommon.Protocol.Proofs.TotalityProofs
import AmpcCommon.Protocol.Swap
import AmpcCommon.Protocol.Proofs.SwapProofs
import AmpcCommon.Protocol.Proofs.AndProductProofs
import AmpcCommon.Protocol.Proofs.ReductionProofs
import AmpcCommon.Protocol.Proofs.NhdReductionProofs
import AmpcCommon.Batches.Polling
import AmpcCommon.Batches.Entries
import AmpcCommon.Batches.Proofs.EntriesProofs
import AmpcCommon.Channel.Proofs.RejectionProofs
import AmpcCommon.Base.StreamNetwork
import AmpcCommon.Base.StreamTask
import AmpcCommon.Sessions.ControlChannel
import AmpcCommon.Sessions.Proofs.ControlChannelProofs
import AmpcCommon.Tcp.Connect
import AmpcCommon.Tcp.Proofs.ConnectProofs
import AmpcCommon.Batches.States
import AmpcCommon.Batches.Proofs.StatesProofs
import AmpcCommon.Sessions.SessionIds
import AmpcCommon.Sessions.Proofs.SessionIdProofs
import AmpcCommon.Stats.Proofs.MappingProofs
import AmpcCommon.Base.Packing
import AmpcCommon.Wire.BitPacking
import AmpcCommon.Wire.Proofs.BitPackingProofs
import AmpcCommon.Protocol.Proofs.PackingProofs
import AmpcCommon.Wire.Proofs.Ring48Proofs
import AmpcCommon.Stats.Iris1d
import AmpcCommon.Stats.Proofs.RegroupProofs
import AmpcCommon.Stats.Proofs.NhdBucketProofs
import AmpcCommon.Stats.Proofs.Iris1dProofs
import AmpcCommon.Stats.Iris2dJobs
import AmpcCommon.Stats.Proofs.Iris2dJobsProofs
import AmpcCommon.Base.Embedding
import AmpcCommon.Protocol.Setup
import AmpcCommon.Protocol.Proofs.SetupProofs
import AmpcCommon.Protocol.Matching
import AmpcCommon.Protocol.Proofs.MatchingProofs
import AmpcCommon.Sync.JobSizes
import AmpcCommon.Sync.Proofs.JobSizesProofs
import AmpcCommon.Base.Database
import AmpcCommon.Base.DatabaseRules
import AmpcCommon.Base.DatabaseLives
import AmpcCommon.Base.DatabaseCalls
import AmpcCommon.Base.DatabaseAlone
import AmpcCommon.Base.SerialDatabase
import AmpcCommon.Stats.Store
import AmpcCommon.Stats.Proofs.StoreInvariantProofs
import AmpcCommon.Stats.Proofs.StoreProofs
import AmpcCommon.Stats.Proofs.StoreRunProofs
import AmpcCommon.Stats.FaceStore
import AmpcCommon.Stats.Proofs.FaceStoreProofs
import AmpcCommon.Modifications.Postgres
import AmpcCommon.Modifications.Proofs.PostgresProofs
import AmpcCommon.Modifications.TableRecovery
import AmpcCommon.Modifications.Proofs.TableWriteProofs
import AmpcCommon.Modifications.Proofs.TableRecoveryProofs
import AmpcCommon.Startup.Gallery
import AmpcCommon.Startup.Proofs.GalleryProofs
import AmpcCommon.Base.RelyGuarantee
import AmpcCommon.Startup.Lifecycle
import AmpcCommon.Startup.Proofs.LifecycleProofs
import AmpcCommon.Startup.Shutdown
import AmpcCommon.Startup.Proofs.ShutdownProofs
import AmpcCommon.Base.Base64
import AmpcCommon.Galois.Embedding
import AmpcCommon.Galois.Proofs.EmbeddingProofs
import AmpcCommon.Keys.Decryption
import AmpcCommon.Keys.Rotation
import AmpcCommon.Keys.Proofs.RotationProofs
import AmpcCommon.Modifications.Results
import AmpcCommon.Modifications.Proofs.ResultsProofs
