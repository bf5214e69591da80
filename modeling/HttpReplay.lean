import HttpReplay.Base64
import HttpReplay.Binary64
import HttpReplay.Bytes
import HttpReplay.Capture.Answer
import HttpReplay.Capture.Error
import HttpReplay.Capture.Reader
import HttpReplay.Capture.Record
import HttpReplay.Capture.Stream
import HttpReplay.Capture.Transcript
import HttpReplay.Convert
import HttpReplay.Files.Fault
import HttpReplay.Files.Input
import HttpReplay.Files.Path
import HttpReplay.Files.Tree
import HttpReplay.Http.Body
import HttpReplay.Http.Chunked
import HttpReplay.Http.Dispatch
import HttpReplay.Http.Folding
import HttpReplay.Http.Grammar
import HttpReplay.Http.Head
import HttpReplay.Http.Headers
import HttpReplay.Http.LenientHead
import HttpReplay.Http.Message
import HttpReplay.Http.Parse
import HttpReplay.Http.Pending
import HttpReplay.Http.Scan
import HttpReplay.Http.Wire
import HttpReplay.Json.Fault
import HttpReplay.Json.Members
import HttpReplay.Json.Number
import HttpReplay.Json.Skip
import HttpReplay.Json.Text
import HttpReplay.Json.Value
import HttpReplay.Log
import HttpReplay.Main
import HttpReplay.Program
import HttpReplay.Script.Build
import HttpReplay.Script.Call
import HttpReplay.Script.Call.Reader
import HttpReplay.Script.Host
import HttpReplay.Script.Literal
import HttpReplay.Script.Literal.Canonical
import HttpReplay.Script.Literal.Reader
import HttpReplay.Session
import HttpReplay.Settings.Basic
import HttpReplay.Settings.CommandLine
import HttpReplay.Settings.Error
import HttpReplay.Settings.Verbosity
import HttpReplay.Store
import HttpReplay.Text.Case
import HttpReplay.Text.Control
import HttpReplay.Text.Escape
import HttpReplay.Text.Found
import HttpReplay.Text.Hidden
import HttpReplay.Text.Numeral
import HttpReplay.Text.Quoted
import HttpReplay.Text.Space
import HttpReplay.Time.Calendar
import HttpReplay.Time.Instant
import HttpReplay.Time.Rfc3339
import HttpReplay.Toml.Document
import HttpReplay.Toml.Quoted
import HttpReplay.Toml.Scalar
import HttpReplay.Toml.Snippet
import HttpReplay.Toml.Table
import HttpReplay.Proofs.Http.Heads
import HttpReplay.Proofs.Http.LenientHeads
import HttpReplay.Proofs.Dispatch.Account
import HttpReplay.Proofs.Dispatch.Requests
import HttpReplay.Proofs.Dispatch.Conversation
import HttpReplay.Proofs.Dispatch.Cuts
import HttpReplay.Proofs.Dispatch.Pairing
import HttpReplay.Proofs.Dispatch.Finality
import HttpReplay.Proofs.Dispatch.Truncation
import HttpReplay.Proofs.Checked.Runs
import HttpReplay.Proofs.Files.Stores
import HttpReplay.Proofs.Files.Trees
import HttpReplay.Proofs.Script.Scripts
import HttpReplay.Proofs.Sessions
import HttpReplay.Proofs.Base64
import HttpReplay.Proofs.Time.Days
import HttpReplay.Proofs.Time.Instants
import HttpReplay.Proofs.Json.Records
import HttpReplay.Proofs.Capture.Lines
import HttpReplay.Proofs.Capture.Transcripts
import HttpReplay.Proofs.Json.Texts
import HttpReplay.Proofs.Capture.Answers
import HttpReplay.Proofs.Sessions.Limits
import HttpReplay.Proofs.Http.FirstLines
import HttpReplay.Proofs.Dispatch.Openings
import HttpReplay.Proofs.Http.Folding
import HttpReplay.Proofs.Dispatch.Folding
import HttpReplay.Proofs.Capture.LineNumbers
import HttpReplay.Proofs.Sessions.Failures
import HttpReplay.Proofs.Files.Listings
import HttpReplay.Proofs.Files.Operations
import HttpReplay.Proofs.Script.Boundaries
import HttpReplay.Proofs.Script.Urls
import HttpReplay.Proofs.Script.Canonical
import HttpReplay.Proofs.Script.Categories
import HttpReplay.Proofs.Http.HeaderMaps
import HttpReplay.Proofs.Dispatch.Spans
import HttpReplay.Proofs.Http.Grammar
import HttpReplay.Proofs.Dispatch.Rooms
import HttpReplay.Proofs.Files.Directories
import HttpReplay.Proofs.Program
