import PackedRecord.Bytes.LittleEndian
import PackedRecord.Bytes.Output
import PackedRecord.Bytes.Source
import PackedRecord.C.Codec
import PackedRecord.C.Identifier
import PackedRecord.C.Machine
import PackedRecord.C.Platform
import PackedRecord.C.Release
import PackedRecord.C.Status
import PackedRecord.C.Storage
import PackedRecord.C.Syntax
import PackedRecord.Cli.Arguments
import PackedRecord.Cli.FileName
import PackedRecord.Cli.Files
import PackedRecord.Cli.Run
import PackedRecord.Compile.Code
import PackedRecord.Compile.Error
import PackedRecord.Compile.Verify
import PackedRecord.Json.Basic
import PackedRecord.Json.Parser
import PackedRecord.Json.Printer
import PackedRecord.Main
import PackedRecord.Manifest.Basic
import PackedRecord.Manifest.Bundle
import PackedRecord.Manifest.Error
import PackedRecord.Manifest.Inspect
import PackedRecord.Manifest.Reader
import PackedRecord.Manifest.Vectors
import PackedRecord.Number.Binary
import PackedRecord.Number.Shortest
import PackedRecord.Plan.Build
import PackedRecord.Plan.Json
import PackedRecord.Plan.Place
import PackedRecord.Plan.Read
import PackedRecord.Plan.State
import PackedRecord.Plan.Write
import PackedRecord.Schema.FieldType
import PackedRecord.Schema.Json
import PackedRecord.Text.Quoted
import PackedRecord.Text.Unprintable
import PackedRecord.Text.Utf8
import PackedRecord.Value.Basic
import PackedRecord.Value.Decode
import PackedRecord.Value.Encode
import PackedRecord.Value.Error
import PackedRecord.Value.Json
import PackedRecord.Proofs.Except
import PackedRecord.Proofs.Bytes.Reading
import PackedRecord.Proofs.Schema.Induction
import PackedRecord.Proofs.Text.Utf8
import PackedRecord.Proofs.Value.Wire
import PackedRecord.Proofs.Value.Encoding
import PackedRecord.Proofs.Value.RoundTrip
import PackedRecord.Proofs.Value.Width
import PackedRecord.Proofs.Value.Insertion
import PackedRecord.Proofs.Value.Visible
import PackedRecord.Proofs.Value.Normal
import PackedRecord.Proofs.Value.Delimiting
import PackedRecord.Proofs.Value.Canonical
import PackedRecord.Proofs.Plan.Walk
import PackedRecord.Proofs.Plan.Structure
import PackedRecord.Proofs.Plan.Places
import PackedRecord.Proofs.Plan.Reading
import PackedRecord.Proofs.Plan.Writing
import PackedRecord.Proofs.Plan.RoundTrip
import PackedRecord.Proofs.Plan.Delimiting
import PackedRecord.Proofs.C.Execution
import PackedRecord.Proofs.C.Record
import PackedRecord.Proofs.C.Reader
import PackedRecord.Proofs.C.Writer
import PackedRecord.Proofs.C.Ownership
import PackedRecord.Proofs.Compile.Supported
import PackedRecord.Proofs.Compile.Agreement
import PackedRecord.Proofs.Compile.Release
import PackedRecord.Proofs.Compile.Storable
import PackedRecord.Proofs.Compile.Overflow
import PackedRecord.Proofs.Compile.Language
import PackedRecord.Proofs.Json.Numbers
import PackedRecord.Proofs.Value.Json
import PackedRecord.Proofs.Manifest.Reading
import PackedRecord.Proofs.Json.Objects
import PackedRecord.Proofs.Manifest.Vectors
import PackedRecord.Proofs.C.ReleaseList
import PackedRecord.Proofs.C.Lines
import PackedRecord.Proofs.C.Trace
import PackedRecord.Proofs.C.Mirror
import PackedRecord.Proofs.C.Mentions
import PackedRecord.Proofs.C.Guards
import PackedRecord.Proofs.Value.ExactWidth
import PackedRecord.Proofs.Json.Order
import PackedRecord.Proofs.Schema.Grammar
import PackedRecord.Proofs.Value.JsonForms
import PackedRecord.Proofs.Bytes.Buffers
import PackedRecord.Proofs.C.Nesting
import PackedRecord.Proofs.C.Numerals
import PackedRecord.Proofs.C.Declarations
import PackedRecord.Proofs.C.Definitions
import PackedRecord.Proofs.C.FieldLines
import PackedRecord.Proofs.Compile.Footprint
import PackedRecord.Proofs.Manifest.Symbols
import PackedRecord.Proofs.Plan.Calls
import PackedRecord.Proofs.Value.Paths
import PackedRecord.Proofs.Manifest.Macros
