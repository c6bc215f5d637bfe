import VelocityMcp.Client.NdaCodec
import VelocityMcp.NdaNative.Extract
import VelocityMcp.NdaDocument
import VelocityMcp.Shmem.Agreement
import VelocityMcp.Resources
import VelocityMcp.Server
import VelocityMcp.Client.NdaResponse
import VelocityMcp.NdaNative.Answers
import VelocityMcp.NdaNative.ErrorTexts
import VelocityMcp.Client.Types
import VelocityMcp.Client.McpClient
import VelocityMcp.Client.Transports
import VelocityMcp.Client.Exchange
import VelocityMcp.Client.Parity
import VelocityMcp.Client.Stdio
import VelocityMcp.NdaNative.Encrypted
import VelocityMcp.NdaNative.Field
import VelocityMcp.NdaNative.Flat
import VelocityMcp.JsonText
import VelocityMcp.Wasm.Slots
import VelocityMcp.Wasm.Callable
import VelocityMcp.Wasm.AtMostOnce
import VelocityMcp.Wasm.Versions
import VelocityMcp.Wasm.Containment
import VelocityMcp.Wasm.Descriptors
import VelocityMcp.Lib.Holdings
import VelocityMcp.RateLimit.TokenBucket
import VelocityMcp.Lib.Lru
import VelocityMcp.Lib.Meter
import VelocityMcp.RateLimit.Peers
import VelocityMcp.Lib.FirstWins
import VelocityMcp.Registry.Builtin
import VelocityMcp.Registry.Listing
import VelocityMcp.Registry.Dispatch
import VelocityMcp.Registry.Frames
import VelocityMcp.Lib.Base64
import VelocityMcp.Registry.Convert
import VelocityMcp.Registry.Invoke
import VelocityMcp.Registry.FastPath
import VelocityMcp.Lib.Stamps
import VelocityMcp.Registry.ToolsCache
import VelocityMcp.Wasm.Iovecs
import VelocityMcp.Wasm.Imports
import VelocityMcp.Wasm.Transfers
import VelocityMcp.Wasm.Streams
import VelocityMcp.Wasm.PollOneoff
import VelocityMcp.JsonRpc.Parity
import VelocityMcp.Lib.Delimited
import VelocityMcp.Http.Streamable
import VelocityMcp.Http.Cache
import VelocityMcp.JsonRpc.IdKeys
import VelocityMcp.JsonRpc.Cancellation
import VelocityMcp.Http.Audit
import VelocityMcp.Lib.Recent
import VelocityMcp.Audit.Log
import VelocityMcp.Lib.Csv
import VelocityMcp.Audit.Csv
import VelocityMcp.Lib.HashMap
import VelocityMcp.Audit.Registry
import VelocityMcp.Http.Sessions
import VelocityMcp.Lib.Lines
import VelocityMcp.Stdio.JsonMode
import VelocityMcp.Stdio.NdaMode
import VelocityMcp.Document.Executor
import VelocityMcp.Document.BinaryPayload
import VelocityMcp.Document.SourceCode
import VelocityMcp.Lib.HashTree
import VelocityMcp.Document.Merkle
import VelocityMcp.Lib.Word
import VelocityMcp.Document.Safety
import VelocityMcp.Document.Signature
import VelocityMcp.Lib.Ip
import VelocityMcp.Lib.Uri
import VelocityMcp.Registry.HttpGuard
import VelocityMcp.Auth.Comparators
import VelocityMcp.Wasm.RuntimeRegistry
import VelocityMcp.Registry.ShellGuard
import VelocityMcp.Lib.Layout
import VelocityMcp.Sandbox.FileAccess
import VelocityMcp.Plugins.Marketplace
import VelocityMcp.Plugins.Isolation
import VelocityMcp.Lib.IpText
import VelocityMcp.Edge.ClientIp
import VelocityMcp.Lib.Decimal
import VelocityMcp.Lib.ValueStack
import VelocityMcp.Guest.JsonParser
import VelocityMcp.Guest.Lua
import VelocityMcp.Guest.MicroPython
import VelocityMcp.Guest.Calls
import VelocityMcp.Guest.Agreement
import VelocityMcp.Guest.Stack
import VelocityMcp.Lib.Chained
import VelocityMcp.Lib.Fuel
import VelocityMcp.Interp.Value
import VelocityMcp.Lib.CBuffer
import VelocityMcp.Interp.Render
import VelocityMcp.Interp.RenderBounds
import VelocityMcp.Interp.Tlv
import VelocityMcp.Interp.JsonParser
import VelocityMcp.Interp.EntryPoints
import VelocityMcp.Interp.Decoding
import VelocityMcp.Interp.Encodings
import VelocityMcp.Interp.Tokenizer
import VelocityMcp.Interp.Runtimes
import VelocityMcp.Interp.Parser
import VelocityMcp.Interp.Reading
import VelocityMcp.Interp.Grammar
import VelocityMcp.Interp.Coverage
import VelocityMcp.Interp.Printer
import VelocityMcp.Interp.Spelling
import VelocityMcp.Interp.RoundTrip
import VelocityMcp.Lib.RefCount
import VelocityMcp.Interp.Arrays
import VelocityMcp.Lib.Binary64
import VelocityMcp.JsonNumbers
import VelocityMcp.Macros.McpTool
import VelocityMcp.Macros.Arguments
import VelocityMcp.Lib.Search
import VelocityMcp.Interp.TextBuiltins
import VelocityMcp.Guest.LuaEncoder
import VelocityMcp.Guest.LuaRoundTrip
import VelocityMcp.Lib.JsonSyntax
import VelocityMcp.Guest.MrubyEncoder
import VelocityMcp.Guest.MrubyTruth
import VelocityMcp.Lib.Chunks
import VelocityMcp.Streaming
import VelocityMcp.JsonRpc.Pagination
import VelocityMcp.Lib.Gregorian
import VelocityMcp.Edge.Timestamp
import VelocityMcp.Edge.Base64
import VelocityMcp.Lib.BlockHash
import VelocityMcp.Lib.Expansion
import VelocityMcp.Lib.Digests
import VelocityMcp.Edge.HashText
import VelocityMcp.Edge.MathEval
import VelocityMcp.Edge.MathGrammar
import VelocityMcp.Lib.JsonLayout
import VelocityMcp.Lib.JsonWeights
import VelocityMcp.JsonReader
import VelocityMcp.Edge.JsonFormat
import VelocityMcp.Edge.RateLimiter
import VelocityMcp.Lib.Replace
import VelocityMcp.Lib.Template
import VelocityMcp.Lib.Marks
import VelocityMcp.Prompts
import VelocityMcp.Plugins.Templates
import VelocityMcp.Lib.Percent
import VelocityMcp.OAuth.Authorize
import VelocityMcp.OAuth.States
import VelocityMcp.OAuth.Token
import VelocityMcp.ResourceStore
import VelocityMcp.Subscriptions
import VelocityMcp.Sandbox.OutputCapture
import VelocityMcp.Sampling
import VelocityMcp.StreamingStates
import VelocityMcp.Registry.EditFile
import VelocityMcp.Guest.OutputBuffer
