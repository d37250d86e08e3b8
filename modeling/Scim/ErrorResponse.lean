import Scim.Filter.Error
import Scim.Json.Members
import Scim.Json.Record
import Scim.Number.Digits
import Scim.Patch.Error
import Scim.Validation.Error

/-!
# Error responses

What a client is told about an error: a status, a word for the kind of error, and the text.  Every
kind of error of the library has a response.

The status is text.  Its code is the number that it writes in decimal digits, with an optional
plus sign, if that has three digits, and 500 otherwise.
-/

namespace Scim

open Json (Written)

/-- The kind of an error as a client sees it. -/
inductive ErrorResponse.Kind where
  | invalidFilter
  | invalidPath
  | invalidSyntax
  | noTarget
  | mutability
  | invalidValue
  | tooMany
  deriving DecidableEq, Repr

/-- An error as a client sees it. -/
structure ErrorResponse where
  /-- The schemas of the response. -/
  schemas : List String
  /-- The status. -/
  status : String
  /-- The kind, if there is a word for it. -/
  kind : Option ErrorResponse.Kind
  /-- The text. -/
  detail : String

namespace ErrorResponse

/-- The identifier of the schema of error responses. -/
def schemaId : String := "urn:ietf:params:scim:api:messages:2.0:Error"

namespace Kind

/-- Every kind. -/
def all : List Kind :=
  [invalidFilter, invalidPath, invalidSyntax, noTarget, mutability, invalidValue, tooMany]

/-- The word for a kind. -/
def word : Kind → String
  | invalidFilter => "invalidFilter"
  | invalidPath => "invalidPath"
  | invalidSyntax => "invalidSyntax"
  | noTarget => "noTarget"
  | mutability => "mutability"
  | invalidValue => "invalidValue"
  | tooMany => "tooMany"

/-- The status of responses of a kind. -/
def status : Kind → Nat
  | tooMany => 413
  | _ => 400

end Kind

/-- The response to an error of the client. -/
def refused (kind : Kind) (detail : String) : ErrorResponse :=
  ⟨[schemaId], toString kind.status, some kind, detail⟩

/-- The response to an error of the server. -/
def internal (detail : String) : ErrorResponse := ⟨[schemaId], "500", none, detail⟩

/-- The code of the status. -/
def statusCode (r : ErrorResponse) : Nat :=
  match Digits.unsigned? r.status.toList with
  | some n => if 100 ≤ n ∧ n ≤ 999 then n else 500
  | none => 500

/-! ## As JSON -/

/-- Decodes a response. -/
def ofWritten? (v : Written) : Option ErrorResponse := do
  match ← Written.fields? ["schemas", "status", "scimType", "detail"] v with
  | [schemas, status, kind, detail] =>
      some {
        schemas := ← Written.required? (Written.list? Written.string?) schemas
        status := ← Written.required? Written.string? status
        kind := ← Written.nullable? (Written.choice? (Kind.all.map fun k => (k.word, k))) kind
        detail := ← Written.required? Written.string? detail }
  | _ => none

/-- Writes a response, with its members in the order of the fields. -/
def toJson (r : ErrorResponse) : Json :=
  .object <|
    [("schemas", .array (r.schemas.map .string)), ("status", .string r.status)] ++
    (r.kind.map fun k => ("scimType", Json.string k.word)).toList ++
    [("detail", .string r.detail)]

end ErrorResponse

/-! ## Responses to errors -/

/-- The response to an error in a filter. -/
def Filter.Error.response (e : Filter.Error) : ErrorResponse := .refused .invalidFilter e.message

/-- The response to an error in a path. -/
def Path.Error.response (e : Path.Error) : ErrorResponse := .refused .invalidPath e.message

/-- The response to an error of validation. -/
def Validation.Error.response (e : Validation.Error) : ErrorResponse :=
  match e with
  | .immutable _ => .refused .mutability e.message
  | _ => .refused .invalidValue e.message

/-- The response to an error in a change request. -/
def Patch.Error.response (e : Patch.Error) : ErrorResponse :=
  match e.rootCause with
  | .invalidSchema => .refused .invalidSyntax e.message
  | .tooManyOperations .. => .refused .tooMany e.message
  | .path _ => .refused .invalidPath e.message
  | .noTarget _ => .refused .noTarget e.message
  | .failed _ => .internal e.message
  | .invalidModification _ | .operation .. => .refused .invalidValue e.message

end Scim
