import VersatileEngine.Bin.Tree
import VersatileEngine.Command.Accounting
import VersatileEngine.Command.Content
import VersatileEngine.Command.Input
import VersatileEngine.Command.Listed
import VersatileEngine.Command.Named
import VersatileEngine.Command.Registered
import VersatileEngine.Command.Registry
import VersatileEngine.Core.Growth
import VersatileEngine.Core.HashMapOrder
import VersatileEngine.Core.Manager
import VersatileEngine.Core.Object
import VersatileEngine.Core.Reinsert
import VersatileEngine.Core.SelfAssign
import VersatileEngine.Core.VectorPool
import VersatileEngine.Entry.ConfigDir
import VersatileEngine.Entry.Modules
import VersatileEngine.Entry.Priorities
import VersatileEngine.Json.Export
import VersatileEngine.Json.Failure
import VersatileEngine.Json.Limited
import VersatileEngine.Json.RoundTrip
import VersatileEngine.Json.VarText
import VersatileEngine.Lib.Joining
import VersatileEngine.Lib.Merging
import VersatileEngine.Lib.Paths
import VersatileEngine.Lib.RawDecode
import VersatileEngine.Lib.RawReads
import VersatileEngine.Mcp.Server
import VersatileEngine.Mcp.Stream
import VersatileEngine.Md.Nesting
import VersatileEngine.Md.Onto
import VersatileEngine.Md.RoundTrip
import VersatileEngine.Node.Acyclic
import VersatileEngine.Node.Appended
import VersatileEngine.Node.Atomic
import VersatileEngine.Node.Confined
import VersatileEngine.Node.Converge
import VersatileEngine.Node.Frees
import VersatileEngine.Node.Grown
import VersatileEngine.Node.InOrder
import VersatileEngine.Node.Keeping
import VersatileEngine.Node.Keys
import VersatileEngine.Node.Mirror
import VersatileEngine.Node.Overlay
import VersatileEngine.Node.Parts
import VersatileEngine.Node.Residue
import VersatileEngine.Node.Resolve
import VersatileEngine.Node.Shadows
import VersatileEngine.Node.Signals
import VersatileEngine.Node.Writes
import VersatileEngine.Pipeline.Agreement
import VersatileEngine.Pipeline.Completion
import VersatileEngine.Pipeline.Isolation
import VersatileEngine.Pipeline.Order
import VersatileEngine.Pipeline.Progress
import VersatileEngine.Ros.Yaml
import VersatileEngine.Schema.Formats
import VersatileEngine.Schema.Overloads
import VersatileEngine.Schema.Put
import VersatileEngine.Sdk.Batch
import VersatileEngine.Sdk.Connection
import VersatileEngine.Sdk.Deadlock
import VersatileEngine.Sdk.Delivery
import VersatileEngine.Sdk.MsgPack
import VersatileEngine.Sdk.Reassembly
import VersatileEngine.Sdk.Replies
import VersatileEngine.Sdk.Survival
import VersatileEngine.Sdk.TcpJson
import VersatileEngine.Sdk.Threads
import VersatileEngine.Search.Glob
import VersatileEngine.Search.Walk
import VersatileEngine.Service.Answering
import VersatileEngine.Service.Bubble
import VersatileEngine.Service.Builtins
import VersatileEngine.Service.Candidates
import VersatileEngine.Service.Client
import VersatileEngine.Service.Console
import VersatileEngine.Service.Counting
import VersatileEngine.Service.Drawing
import VersatileEngine.Service.Files
import VersatileEngine.Service.FlagOrder
import VersatileEngine.Service.Gateway
import VersatileEngine.Service.History
import VersatileEngine.Service.Integrity
import VersatileEngine.Service.Keys
import VersatileEngine.Service.Leading
import VersatileEngine.Service.LineEditor
import VersatileEngine.Service.Listing
import VersatileEngine.Service.Loading
import VersatileEngine.Service.Ports
import VersatileEngine.Service.Protocol
import VersatileEngine.Service.References
import VersatileEngine.Service.RemoteReturns
import VersatileEngine.Service.Rest
import VersatileEngine.Service.Sequence
import VersatileEngine.Service.Serving
import VersatileEngine.Service.Setting
import VersatileEngine.Service.Shown
import VersatileEngine.Service.Static
import VersatileEngine.Service.Subscribe
import VersatileEngine.Service.Tabs
import VersatileEngine.Service.Targets
import VersatileEngine.Service.TaskOrder
import VersatileEngine.Service.Tokens
import VersatileEngine.Service.Total
import VersatileEngine.Service.Width
import VersatileEngine.Xml.Html
import VersatileEngine.Xml.RoundTrip
