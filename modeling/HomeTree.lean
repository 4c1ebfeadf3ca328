import HomeTree.Client.Basic
import HomeTree.Client.Dispatch
import HomeTree.Client.Error
import HomeTree.Client.Request
import HomeTree.Client.Routing
import HomeTree.Command.Arguments
import HomeTree.Command.Basic
import HomeTree.Command.Running
import HomeTree.Daemon.Basic
import HomeTree.Daemon.Site
import HomeTree.Decimal.Double
import HomeTree.Decimal.Reading
import HomeTree.Decimal.Shortest
import HomeTree.Dict
import HomeTree.Endpoint
import HomeTree.Endpoint.Binding
import HomeTree.Error
import HomeTree.Files.Basic
import HomeTree.Files.Path
import HomeTree.Json.Basic
import HomeTree.Json.Printer
import HomeTree.Json.Reading
import HomeTree.Json.Record
import HomeTree.Json.Source
import HomeTree.Main
import HomeTree.Message.Basic
import HomeTree.Message.Encoding
import HomeTree.Network.Address
import HomeTree.Network.ServiceAddress
import HomeTree.Node
import HomeTree.Path.Basic
import HomeTree.Path.Pattern
import HomeTree.Proofs.Client.Blocking
import HomeTree.Proofs.Client.Replies
import HomeTree.Proofs.Client.Routing
import HomeTree.Proofs.Client.Session
import HomeTree.Proofs.Client.TreeCall
import HomeTree.Proofs.Contents.Basic
import HomeTree.Proofs.Contents.Edits
import HomeTree.Proofs.Contents.Lineage
import HomeTree.Proofs.Contents.Log
import HomeTree.Proofs.Contents.Prune
import HomeTree.Proofs.Contents.Query
import HomeTree.Proofs.Contents.Standing
import HomeTree.Proofs.Contents.Store
import HomeTree.Proofs.Contents.Walk
import HomeTree.Proofs.Daemon.Attached
import HomeTree.Proofs.Daemon.Delivery
import HomeTree.Proofs.Daemon.Opened
import HomeTree.Proofs.Daemon.Remote
import HomeTree.Proofs.Dict
import HomeTree.Proofs.Except
import HomeTree.Proofs.Json.Numeral
import HomeTree.Proofs.Json.RoundTrip
import HomeTree.Proofs.Json.Text
import HomeTree.Proofs.Message.Fields
import HomeTree.Proofs.Message.RoundTrip
import HomeTree.Proofs.Path.Above
import HomeTree.Proofs.Path.Order
import HomeTree.Proofs.Path.Text
import HomeTree.Proofs.Query.Errors
import HomeTree.Proofs.Query.Execution
import HomeTree.Proofs.Query.Group
import HomeTree.Proofs.Query.Reading
import HomeTree.Proofs.Query.Simulation
import HomeTree.Proofs.Query.Steps
import HomeTree.Proofs.Query.Travelling
import HomeTree.Proofs.Selector.Canonical
import HomeTree.Proofs.Selector.Grammar
import HomeTree.Proofs.Selector.Parsing
import HomeTree.Proofs.Selector.Selection
import HomeTree.Proofs.Service.Acknowledgement
import HomeTree.Proofs.Service.Answer
import HomeTree.Proofs.Service.Connection
import HomeTree.Proofs.Service.Delivery
import HomeTree.Proofs.Service.Elsewhere
import HomeTree.Proofs.Service.Isolation
import HomeTree.Proofs.Service.Reply
import HomeTree.Proofs.Service.Room
import HomeTree.Proofs.Service.Run
import HomeTree.Proofs.Service.Serving
import HomeTree.Proofs.Service.Telling
import HomeTree.Proofs.Subscription.Canonical
import HomeTree.Proofs.Text.Utf8
import HomeTree.Proofs.Tree.Reachable
import HomeTree.Proofs.Tree.Slots
import HomeTree.Proofs.Tree.Sound
import HomeTree.Proofs.Tree.Step
import HomeTree.Proofs.Wire.Alignment
import HomeTree.Proofs.Wire.RoundTrip
import HomeTree.Query.Builder
import HomeTree.Query.Plan
import HomeTree.Query.Transform
import HomeTree.Selector.Basic
import HomeTree.Selector.Matching
import HomeTree.Selector.Parser
import HomeTree.Service.Basic
import HomeTree.Service.Connection
import HomeTree.Settings.Basic
import HomeTree.Subscription.Outbox
import HomeTree.Subscription.Registry
import HomeTree.Subscription.Target
import HomeTree.Text.Blank
import HomeTree.Text.Numeral
import HomeTree.Text.Parts
import HomeTree.Text.Utf8
import HomeTree.Tree.Basic
import HomeTree.Tree.Walk
import HomeTree.Wire.Framing
import HomeTree.Yaml.Basic
import HomeTree.Yaml.Block
import HomeTree.Yaml.Cursor
import HomeTree.Yaml.Document
import HomeTree.Yaml.Scalar
import HomeTree.Yaml.Tag
import HomeTree.Yaml.Token
import HomeTree.Proofs.Path.Grammar
import HomeTree.Proofs.Selector.Address
import HomeTree.Proofs.Contents.Style
import HomeTree.Proofs.Query.Style
import HomeTree.Proofs.Service.Stillness
import HomeTree.Proofs.Contents.Emptying
import HomeTree.Proofs.Selector.Nesting
import HomeTree.Proofs.Query.Branches
import HomeTree.Proofs.Contents.Growth
import HomeTree.Proofs.Query.Reflection
import HomeTree.Proofs.Json.Opening
import HomeTree.Proofs.Wire.Salvage
import HomeTree.Proofs.Json.Grammar
import HomeTree.Proofs.Json.Completeness
import HomeTree.Proofs.Wire.Recovery
import HomeTree.Proofs.Query.WireForm
import HomeTree.Proofs.Service.Creation
import HomeTree.Proofs.Contents.Dismantling
import HomeTree.Proofs.Service.Grouping
import HomeTree.Proofs.Client.Events
import HomeTree.Proofs.Client.Callbacks
import HomeTree.Proofs.Query.Attributes
