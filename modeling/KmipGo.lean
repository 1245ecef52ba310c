import KmipGo.Ttlv.Grammar
import KmipGo.Value.RoundTrip
import KmipGo.Codec.Layout
import KmipGo.Server.Response
import KmipGo.Server.Protocol
import KmipGo.Server.Traffic
import KmipGo.Registry.Consistent
import KmipGo.Lib.Json
import KmipGo.Text.Form
import KmipGo.Json.Encode
import KmipGo.Json.Decode
import KmipGo.Json.RoundTrip
import KmipGo.Lib.Xml
import KmipGo.Xml.Decode
import KmipGo.Xml.Encode
import KmipGo.Xml.Document
import KmipGo.Xml.RoundTrip
import KmipGo.Codec.RoundTrip
import KmipGo.Server.Mux
import KmipGo.Lib.Reorder
import KmipGo.Server.Limit
import KmipGo.Decoder.Fields
import KmipGo.Decoder.Strict
import KmipGo.Server.Payload
import KmipGo.Codec.FieldTags
import KmipGo.Decoder.Framing
import KmipGo.Server.Pool
import KmipGo.Lib.Interleave
import KmipGo.Server.Lifecycle
import KmipGo.Text.Accepted
import KmipGo.Text.Documents
import KmipGo.Ttlv.Instant
import KmipGo.Registry.Mask
import KmipGo.Registry.Hex
import KmipGo.Text.Numbers
import KmipGo.Codec.Numbers
import KmipGo.Codec.Masks
import KmipGo.Message.Payloads
import KmipGo.Server.Handlers
import KmipGo.Server.Batch
import KmipGo.Server.Placeholder
import KmipGo.Registry.History
import KmipGo.Text.Print
import KmipGo.Ttlv.Leading
import KmipGo.Text.PrettyHex
import KmipGo.Tool.Ppkmip
import KmipGo.Xml.Verdict
import KmipGo.Text.Trailing
import KmipGo.Message.UniqueIdentifier
import KmipGo.Server.Attributes
import KmipGo.Text.Times
import KmipGo.Codec.Intervals
import KmipGo.Text.Normalized
import KmipGo.Server.Connection
import KmipGo.Server.Routing
import KmipGo.Server.Accept
import KmipGo.Codec.Arrival
import KmipGo.Server.Exchange
import KmipGo.Server.Replies
import KmipGo.Server.Sessions
import KmipGo.Server.Linearize
import KmipGo.Encoder.WellFormed
import KmipGo.Codec.Streams
import KmipGo.Lib.Lines
import KmipGo.Tool.Conversion
import KmipGo.Tool.Kmipgen
import KmipGo.Tool.Packages
