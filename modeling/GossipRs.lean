import GossipRs.Contracts.ManifestExact
import GossipRs.Coordination.PayloadEncoding
import GossipRs.Engine.Base64GateSpec
import GossipRs.Engine.Pyc
import GossipRs.Engine.Regex2AnchorSound
import GossipRs.Engine.SimdClassify
import GossipRs.Engine.Windows
import GossipRs.Etcd.KeyspaceSpec
import GossipRs.Etcd.RoundTrip
import GossipRs.Frontier.Builder
import GossipRs.Frontier.KeyEncoding
import GossipRs.Git.BlobIntroEnds
import GossipRs.Git.CommitPlan
import GossipRs.Git.LooseTable
import GossipRs.Git.PackEntry
import GossipRs.Git.SpillFiles
import GossipRs.Git.TreeDiffPaths
import GossipRs.Orchestrator.GitPayloadCanonical
import GossipRs.Properties.Accounting
import GossipRs.Properties.Atomicity
import GossipRs.Properties.CheckpointReplay
import GossipRs.Properties.Coverage
import GossipRs.Properties.Runs
import GossipRs.Runtime.ItemScan
import GossipRs.Runtime.PageLoop
import GossipRs.Runtime.PrefixProgress
import GossipRs.Runtime.ResultCommitter
import GossipRs.Scheduler.Chunking
import GossipRs.Scheduler.FindingLoss
import GossipRs.Scheduler.TsBufferPool
import GossipRs.Stdx.FixedSet
import GossipRs.Stdx.SlabHistory
import GossipRs.Stdx.WheelHistory
