import ModelServer.Client.Process
import ModelServer.Client.Replies
import ModelServer.Client.Requests
import ModelServer.Client.SubscriptionPath
import ModelServer.Commands.CommandModel
import ModelServer.Commands.Constructors
import ModelServer.Commands.Edit
import ModelServer.Commands.PatchConversion
import ModelServer.Commands.Prototypes
import ModelServer.Commands.Wire
import ModelServer.Diagnostics.Diagnostic
import ModelServer.Diagnostics.Manager
import ModelServer.Diagnostics.MarkerRuns
import ModelServer.Diagnostics.Merge
import ModelServer.Diagnostics.MergeTree
import ModelServer.Diagnostics.Received
import ModelServer.Diagnostics.Severity
import ModelServer.Diagnostics.Validation
import ModelServer.Js.Conversion
import ModelServer.Js.Document
import ModelServer.Js.Edit
import ModelServer.Js.EditInPlace
import ModelServer.Js.Heap
import ModelServer.Js.Isomorphism
import ModelServer.Js.Json
import ModelServer.Js.JsonPatch
import ModelServer.Js.Owned
import ModelServer.Js.Ownership
import ModelServer.Js.PatchInPlace
import ModelServer.Js.PatchLaws
import ModelServer.Js.PatchRuns
import ModelServer.Js.PatchSpec
import ModelServer.Js.Region
import ModelServer.Js.Relabel
import ModelServer.Js.Store
import ModelServer.Js.Text
import ModelServer.Library.Lists
import ModelServer.Library.Masks
import ModelServer.Library.Relations
import ModelServer.Library.Runs
import ModelServer.Message.DataMapper
import ModelServer.Message.Guards
import ModelServer.Message.Listener
import ModelServer.Message.ListenerV2
import ModelServer.Message.Printing
import ModelServer.Message.SubscriptionClient
import ModelServer.Message.Transport
import ModelServer.Patches.Builders
import ModelServer.Patches.Holders
import ModelServer.Patches.ModelUpdate
import ModelServer.Patches.PatchModel
import ModelServer.Patches.Replica
import ModelServer.Patches.Versions
import ModelServer.Rpc.ProxyFactory
import ModelServer.Sockets.Client
import ModelServer.Sockets.Disposal
import ModelServer.Sockets.Frontends
import ModelServer.Sockets.LiveSockets
import ModelServer.Sockets.Routing
import ModelServer.Sockets.Subscriptions
import ModelServer.Sockets.Theia
import ModelServer.Startup.FrontendContribution
import ModelServer.TypeUtil.CopyGraph
import ModelServer.TypeUtil.CopyJson
import ModelServer.TypeUtil.CopyResult
import ModelServer.TypeUtil.CopyRun
import ModelServer.TypeUtil.Encode
import ModelServer.TypeUtil.Encoding
import ModelServer.TypeUtil.FindProperty
import ModelServer.TypeUtil.Frame
import ModelServer.TypeUtil.Reading
import ModelServer.TypeUtil.Relink
import ModelServer.TypeUtil.Renaming
import ModelServer.TypeUtil.RoundTrip
import ModelServer.TypeUtil.StepOne
import ModelServer.TypeUtil.StepTwo
import ModelServer.TypeUtil.Traverse
import ModelServer.TypeUtil.TypeKeys
import ModelServer.TypeUtil.Visit
