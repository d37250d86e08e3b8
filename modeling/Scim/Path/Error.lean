import Scim.Filter.Error

/-!
# Errors in an attribute path

Why a text is no path, or why a path leads nowhere in a value.
-/

namespace Scim.Path

/-- What is wrong with the form of a path. -/
inductive Fault where
  | emptyPath
  | secondFilter
  | filterWithoutName
  | filterNotLast
  | nestedFilter
  | unbalancedClose
  | unbalancedOpen
  | unterminatedString
  | emptySegment
  | deepArray
  deriving DecidableEq, Repr

/-- An error with the path it occurred in. -/
inductive Error where
  /-- The path is not well formed. -/
  | malformed (path : String) (fault : Fault)
  /-- The value filter is not well formed. -/
  | filter (path : String) (cause : Filter.Error)
  /-- No attribute has the name. -/
  | missing (path segment : String)
  /-- The value has no members to step into. -/
  | shape (path segment found : String)
  /-- The filter does not follow a multi-valued attribute. -/
  | filterOnSingleValue (path : String)
  deriving DecidableEq, Repr

/-- The text of a fault. -/
def Fault.message : Fault → String
  | emptyPath => "path is empty"
  | secondFilter => "only one value filter is allowed"
  | filterWithoutName => "value filter must follow an attribute name"
  | filterNotLast => "value filter must close at the end of its segment"
  | nestedFilter => "only one level of nested filter is allowed"
  | unbalancedClose => "unbalanced ']'"
  | unbalancedOpen => "unbalanced '['"
  | unterminatedString => "unterminated string"
  | emptySegment => "path has an empty segment"
  | deepArray => "complex array is one level only"

/-- The text of an error. -/
def Error.message : Error → String
  | malformed path fault => s!"Invalid path '{path}': {fault.message}"
  | filter path cause => s!"Invalid value filter in path '{path}': {cause.message}"
  | missing path segment => s!"No attribute matches '{segment}' in path '{path}'"
  | shape path segment found =>
      s!"Path '{path}' cannot step into a {found} value at '{segment}'"
  | filterOnSingleValue path =>
      s!"Value filter in path '{path}' must follow a multi-valued attribute"

end Scim.Path
