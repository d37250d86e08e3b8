import Scim.CommandLine.Arguments
import Scim.CommandLine.Help
import Scim.CommandLine.Performance
import Scim.Container
import Scim.ErrorResponse
import Scim.Evaluation.Acceptance
import Scim.Evaluation.Comparison
import Scim.Evaluation.Presence
import Scim.Evaluation.Truth
import Scim.Filter.Constant
import Scim.Filter.Error
import Scim.Filter.Operator
import Scim.Filter.Parser
import Scim.Filter.Scanner
import Scim.Filter.Token
import Scim.Filter.Tree
import Scim.Json.Basic
import Scim.Json.Lexeme
import Scim.Json.Literal
import Scim.Json.Members
import Scim.Json.Reader
import Scim.Json.Record
import Scim.Json.Writer
import Scim.Json.Written
import Scim.Limits
import Scim.Log.Directive
import Scim.Log.Entry
import Scim.Main
import Scim.Number.Conversion
import Scim.Number.Decimal
import Scim.Number.Digits
import Scim.Number.Double
import Scim.Number.Shortest
import Scim.Patch.Application
import Scim.Patch.Error
import Scim.Patch.Request
import Scim.Path.Descent
import Scim.Path.Error
import Scim.Path.Steps
import Scim.Resource
import Scim.Schema.Attribute
import Scim.Schema.Basic
import Scim.Schema.Core
import Scim.Schema.Record
import Scim.Service
import Scim.Settings.Basic
import Scim.Settings.Environment
import Scim.Settings.Files
import Scim.Text.Alphanumeric
import Scim.Text.Blank
import Scim.Text.CaseClasses
import Scim.Text.CaseRuns
import Scim.Text.Folding
import Scim.Text.LowerCase
import Scim.Text.Ranges
import Scim.Time.Calendar
import Scim.Time.Instant
import Scim.Toml.Basic
import Scim.Toml.Lexeme
import Scim.Toml.Moment
import Scim.Toml.Reader
import Scim.Toml.Scalar
import Scim.Validation.Error
import Scim.Validation.Mutability
import Scim.Validation.Required
import Scim.Validation.Types
import Scim.Walk.Basic
import Scim.Walk.Paired
import Scim.Walk.Single
import Scim.Proofs.Filter.Grammar
import Scim.Proofs.Filter.Precedence
import Scim.Proofs.Filter.Words
import Scim.Proofs.Evaluation.Collected
import Scim.Proofs.Evaluation.ValueFilters
import Scim.Proofs.Patch.Atomicity
import Scim.Proofs.Patch.Locality
import Scim.Proofs.Patch.Readback
import Scim.Proofs.Patch.Typing
import Scim.Proofs.Validation.Creation
import Scim.Proofs.Validation.Immutability
import Scim.Proofs.Validation.Resubmission
import Scim.Proofs.Schema.Index
import Scim.Proofs.Filter.Assembly
import Scim.Proofs.Filter.Balance
import Scim.Proofs.Filter.Placement
import Scim.Proofs.Filter.Display
import Scim.Proofs.Path.Lookup
import Scim.Proofs.Validation.Resolution
import Scim.Proofs.Validation.Conformance
import Scim.Proofs.Filter.Rescanning
import Scim.Proofs.Filter.Shape
import Scim.Proofs.Walk.Alone
import Scim.Proofs.Validation.Ownership
import Scim.Proofs.Filter.Conservation
import Scim.Proofs.Filter.Extent
import Scim.Proofs.Patch.Selection
import Scim.Proofs.Patch.Addition
import Scim.Proofs.Patch.Removal
import Scim.Proofs.Patch.Expansion
import Scim.Proofs.Patch.Appending
import Scim.Proofs.Evaluation.Broadcast
import Scim.Proofs.Evaluation.Coherence
import Scim.Proofs.Walk.Visits
import Scim.Proofs.Validation.Requirement
import Scim.Proofs.Validation.Pairing
import Scim.Proofs.Validation.SimpleElements
import Scim.Proofs.Evaluation.Caseless
import Scim.Proofs.Number.Conversion
import Scim.Proofs.Evaluation.Trichotomy
import Scim.Proofs.Filter.Quoting
import Scim.Proofs.Walk.Enclosure
import Scim.Proofs.Path.Writing
import Scim.Proofs.Evaluation.Respelling
import Scim.Proofs.Path.Composition
import Scim.Proofs.Evaluation.Presence
import Scim.Proofs.Filter.Positions
import Scim.Proofs.Service.Order
import Scim.Proofs.Settings.Expansion
import Scim.Proofs.Json.Rereading
import Scim.Proofs.Schema.Recording
import Scim.Proofs.Evaluation.Recursion
