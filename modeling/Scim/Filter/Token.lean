import Scim.Filter.Constant
import Scim.Filter.Operator

/-!
# Tokens

A token has a text, a kind and the details of that kind: its operator, its constant, or the
tokens of the filter in brackets behind a path.  `Token.ofWord` classifies a word.  What is
neither operator nor parenthesis nor constant is a path.

Tokens can also be put together by hand, and then kind and details need not agree.  The parser
looks at the kind to see what a token is for and at the details to see which operator it is.
-/

namespace Scim.Filter

/-- What a token is for. -/
inductive Token.Kind where
  | relational
  | logical
  | parenthesis
  | constant
  | path
  | nestedPath
  deriving DecidableEq, Repr

/-- What is known about a token beyond its text, where `τ` is the type of nested tokens. -/
inductive Token.Detail (τ : Type) where
  | plain
  | operator (op : Operator)
  | constant (value : Constant)
  /-- The tokens of a filter in brackets. -/
  | nested (tokens : List τ)

/-- A token of a filter. -/
structure Token where
  /-- The text as written; for a path with a filter, the path. -/
  text : String
  /-- What the token is for. -/
  kind : Token.Kind
  /-- Its details. -/
  detail : Token.Detail Token

namespace Token

/-- An attribute path. -/
def path (text : String) : Token := ⟨text, .path, .plain⟩

instance : Inhabited Token := ⟨path ""⟩

/-- A parenthesis. -/
def parenthesis (isOpen : Bool) : Token := ⟨if isOpen then "(" else ")", .parenthesis, .plain⟩

/-- An operator as written. -/
def ofOperator (text : String) (op : Operator) : Token :=
  ⟨text, if op.isLogical then .logical else .relational, .operator op⟩

/-- A path with a filter in brackets. -/
def withFilter (text : String) (tokens : List Token) : Token := ⟨text, .nestedPath, .nested tokens⟩

/-- Classifies a word. -/
def ofWord (word : String) : Token :=
  match Operator.ofWord? word with
  | some op => ofOperator word op
  | none =>
      if word = "(" ∨ word = ")" then parenthesis (word = "(")
      else
        match Constant.ofWord? word with
        | some value => ⟨word, .constant, .constant value⟩
        | none => path word

/-- The operator among the details. -/
def operator? (t : Token) : Option Operator :=
  match t.detail with
  | .operator op => some op
  | _ => none

/-- The constant among the details. -/
def constant? (t : Token) : Option Constant :=
  match t.detail with
  | .constant value => some value
  | _ => none

/-- The nested tokens among the details. -/
def nested? (t : Token) : Option (List Token) :=
  match t.detail with
  | .nested tokens => some tokens
  | _ => none

/-- Whether the token opens a group. -/
def isOpen (t : Token) : Bool := t.kind = .parenthesis && t.text == "("

mutual

/-- The token as it is written in a filter. -/
def display : Token → String
  | ⟨text, _, .nested tokens⟩ => text ++ "[" ++ displayAll tokens ++ "]"
  | ⟨text, _, .plain⟩ => text
  | ⟨text, _, .operator _⟩ => text
  | ⟨text, _, .constant _⟩ => text
termination_by structural t => t

/-- Tokens with single spaces between them. -/
def displayAll : List Token → String
  | [] => ""
  | [t] => display t
  | t :: rest => display t ++ " " ++ displayAll rest
termination_by structural ts => ts

end

end Token

end Scim.Filter
