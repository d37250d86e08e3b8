/-!
# Errors in a filter

Why a text is no filter.  Positions and lengths count bytes of UTF-8.
-/

namespace Scim.Filter

/-- A syntax error. -/
inductive Error where
  | empty
  | tooLong (length max : Nat)
  | tooDeep (max : Nat)
  | unterminatedString (position : Nat)
  | nestingTooDeep (position : Nat)
  | mismatchedBracket (position : Nat)
  | danglingFilter (position : Nat)
  | unexpectedAfterFilter (found : Char) (position : Nat)
  | mismatchedParenthesis
  | insufficientArguments (operator : String)
  | unsupportedArity (operator : String) (arity : Nat)
  | excessOperands (count : Nat)
  | invalidOperand (operator found : String)
  deriving DecidableEq, Repr

/-- The text of an error. -/
def Error.message : Error → String
  | empty => "Filter is empty"
  | tooLong length max => s!"Filter exceeds maximum length ({length} bytes, max {max})"
  | tooDeep max => s!"Filter nests deeper than {max} levels"
  | unterminatedString position => s!"Unterminated string at position {position}"
  | nestingTooDeep position =>
      s!"Only one level of nested filter is allowed (position {position})"
  | mismatchedBracket position => s!"Mismatched bracket at position {position}"
  | danglingFilter position =>
      s!"Nested filter at position {position} must follow an attribute path"
  | unexpectedAfterFilter found position =>
      s!"Unexpected character '{found}' after nested filter at position {position}"
  | mismatchedParenthesis => "Mismatched parenthesis"
  | insufficientArguments operator => s!"Insufficient arguments for operator '{operator}'"
  | unsupportedArity operator arity =>
      s!"Operator '{operator}' with {arity} arguments is not supported"
  | excessOperands count =>
      s!"Expression has {count} dangling operands; an operator is missing"
  | invalidOperand operator found =>
      s!"Operator '{operator}' cannot take '{found}' as an operand"

end Scim.Filter
