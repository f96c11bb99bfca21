import Mcpi.Session.Jsonl.AppendFailure
import Mcpi.Protocol.Cbor.Reencode
import Mcpi.Protocol.MessageStream
import Mcpi.Server.RequestOrder
import Mcpi.Client.SessionLeases
import Mcpi.Server.Attachments
import Mcpi.CodingAgent.AppendWrites
import Mcpi.CodingAgent.Branched
import Mcpi.Agent.ToolModes
import Mcpi.CodingAgent.MutationQueue
import Mcpi.Ai.ToolPairing
import Mcpi.CodingAgent.OutputTail
import Mcpi.Agent.Steering
import Mcpi.Agent.RunEvents
import Mcpi.Session.Sqlite.Fencing
import Mcpi.Session.Sqlite.CacheRuns
import Mcpi.Tui.Frames
import Mcpi.Tui.InputConserved
import Mcpi.Tui.InputEvents
import Mcpi.Ai.TokenRotation
import Mcpi.CodingAgent.QueueDisplay
import Mcpi.CodingAgent.OverlappingPrompts
import Mcpi.CodingAgent.PersistedMessages
import Mcpi.CodingAgent.MergedWrites
import Mcpi.Tools.EditAnyOrder
import Mcpi.Tools.UntouchedLines
import Mcpi.Tools.CapturedOutput
import Mcpi.Ai.EventReaders
import Mcpi.Session.Jsonl.OwnNames
import Mcpi.Reducer.RetrievalOrder
import Mcpi.Reducer.Cancellations
import Mcpi.Reducer.ToolBatch
import Mcpi.CodingAgent.CompactionContext
import Mcpi.Harness.CompactionPartition
import Mcpi.CodingAgent.SessionTree
import Mcpi.Server.SnapshotOrder
import Mcpi.Tui.Stack
import Mcpi.Ai.Uuid
import Mcpi.Ai.RepairJson
import Mcpi.Ai.DeferredTools
import Mcpi.Tui.EditorKills
import Mcpi.CodingAgent.RetryReports
import Mcpi.Tui.Truncation
import Mcpi.Ai.ValidatedArguments
import Mcpi.Tools.ReadPages
import Mcpi.Harness.BranchSummary
import Mcpi.Tui.Autocomplete
import Mcpi.CodingAgent.SessionInfo
import Mcpi.CodingAgent.RpcLines
