import EmbeddedMarkup.AutoInsert
import EmbeddedMarkup.Debouncer.Basic
import EmbeddedMarkup.Debouncer.Timeline
import EmbeddedMarkup.FileTree
import EmbeddedMarkup.HostCoordinates
import EmbeddedMarkup.HostDocument
import EmbeddedMarkup.Inquiry
import EmbeddedMarkup.Json.Basic
import EmbeddedMarkup.Json.Double
import EmbeddedMarkup.Json.Reader
import EmbeddedMarkup.Json.Shape
import EmbeddedMarkup.Json.Writer
import EmbeddedMarkup.Main
import EmbeddedMarkup.Markup.Call
import EmbeddedMarkup.Markup.Client
import EmbeddedMarkup.Markup.Connection
import EmbeddedMarkup.Markup.Dialogue
import EmbeddedMarkup.Markup.Error
import EmbeddedMarkup.Markup.Frame
import EmbeddedMarkup.Markup.Handshake
import EmbeddedMarkup.Markup.Message
import EmbeddedMarkup.Mask
import EmbeddedMarkup.Percent
import EmbeddedMarkup.Protocol.Basic
import EmbeddedMarkup.Protocol.Capabilities
import EmbeddedMarkup.Protocol.Completion
import EmbeddedMarkup.Protocol.Definition
import EmbeddedMarkup.Protocol.Hover
import EmbeddedMarkup.Protocol.LinkedEditing
import EmbeddedMarkup.Protocol.Params
import EmbeddedMarkup.Protocol.Unsupported
import EmbeddedMarkup.Query
import EmbeddedMarkup.Region
import EmbeddedMarkup.Server.Basic
import EmbeddedMarkup.Server.Documents
import EmbeddedMarkup.Server.Editor
import EmbeddedMarkup.Server.Insertions
import EmbeddedMarkup.Server.Lifecycle
import EmbeddedMarkup.Server.Questions
import EmbeddedMarkup.Server.Step
import EmbeddedMarkup.Session
import EmbeddedMarkup.Settings.Basic
import EmbeddedMarkup.Settings.Discovery
import EmbeddedMarkup.Settings.Reader
import EmbeddedMarkup.Simulation.Peer
import EmbeddedMarkup.Simulation.Program
import EmbeddedMarkup.Simulation.Workspace
import EmbeddedMarkup.Snippet
import EmbeddedMarkup.Text.Basic
import EmbeddedMarkup.Text.Blank
import EmbeddedMarkup.Text.Change
import EmbeddedMarkup.Text.Decimal
import EmbeddedMarkup.Text.Lines
import EmbeddedMarkup.Text.Position
import EmbeddedMarkup.Text.Utf8
import EmbeddedMarkup.Toml.Basic
import EmbeddedMarkup.Toml.Reader
import EmbeddedMarkup.Toml.Scalar
import EmbeddedMarkup.Url.Basic
import EmbeddedMarkup.Url.Domain
import EmbeddedMarkup.Url.FilePath
import EmbeddedMarkup.Url.Ip
import EmbeddedMarkup.Url.Reader
import EmbeddedMarkup.VirtualDocument
import EmbeddedMarkup.VirtualUri
import EmbeddedMarkup.Proofs.Region.Scan
import EmbeddedMarkup.Proofs.Text.Lines
import EmbeddedMarkup.Proofs.Text.Units
import EmbeddedMarkup.Proofs.Keyed
import EmbeddedMarkup.Proofs.Session.Basic
import EmbeddedMarkup.Proofs.Server.Documents
import EmbeddedMarkup.Proofs.Server.Mirror
import EmbeddedMarkup.Proofs.Percent
import EmbeddedMarkup.Proofs.Protocol
import EmbeddedMarkup.Proofs.VirtualUri
import EmbeddedMarkup.Proofs.Session.Virtual
import EmbeddedMarkup.Proofs.Markup.Account
import EmbeddedMarkup.Proofs.Server.Stream
import EmbeddedMarkup.Proofs.Session.Answers
import EmbeddedMarkup.Proofs.Text.Positions
import EmbeddedMarkup.Proofs.HostDocument.Correspondence
import EmbeddedMarkup.Proofs.Markup.Rounds
import EmbeddedMarkup.Proofs.Debouncer.Tasks
import EmbeddedMarkup.Proofs.Server.Insertions
import EmbeddedMarkup.Proofs.VirtualUri.ReadBack
import EmbeddedMarkup.Proofs.Markup.Exchange
import EmbeddedMarkup.Proofs.Markup.Requests
import EmbeddedMarkup.Proofs.Markup.Responses
import EmbeddedMarkup.Proofs.Markup.Breakdown
import EmbeddedMarkup.Proofs.Text.Blank
import EmbeddedMarkup.Proofs.Markup.Framing
import EmbeddedMarkup.Proofs.Debouncer.Course
import EmbeddedMarkup.Proofs.Debouncer.Passing
import EmbeddedMarkup.Proofs.Debouncer.Slots
import EmbeddedMarkup.Proofs.Mask
import EmbeddedMarkup.Proofs.Session.Views
import EmbeddedMarkup.Proofs.Session.Routing
import EmbeddedMarkup.Proofs.HostCoordinates
import EmbeddedMarkup.Proofs.AutoInsert.Place
import EmbeddedMarkup.Proofs.AutoInsert.Guard
import EmbeddedMarkup.Proofs.Text.Order
import EmbeddedMarkup.Proofs.HostDocument.Shift
import EmbeddedMarkup.Proofs.HostDocument.Regions
import EmbeddedMarkup.Proofs.Mask.Bytes
import EmbeddedMarkup.Proofs.Snippet.Rendering
import EmbeddedMarkup.Proofs.Text.Rounding
import EmbeddedMarkup.Proofs.Settings.Discovery
import EmbeddedMarkup.Proofs.Slicing.Basic
import EmbeddedMarkup.Proofs.Slicing.Lines
import EmbeddedMarkup.Proofs.Slicing.Regions
import EmbeddedMarkup.Proofs.Slicing.Documents
