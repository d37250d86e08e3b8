import Scim.Filter.Parser
import Scim.Path.Error

/-!
# Steps of an attribute path

A path such as `emails[type eq "work"].value` is a list of names with points between them.  At
most one name has a value filter in brackets.  Compiling a path takes it apart.

* White space at its ends and a qualifier in front of it are dropped.  A qualifier starts with
  `urn:` and ends at the last colon before the first bracket.
* The rest is cut at the points that are neither in brackets nor between quotes.
* Every segment becomes a step to a name, followed by a filter step if it has a bracket.
-/

namespace Scim.Path

/-- One step of a path. -/
inductive Step where
  /-- To the member of a name. -/
  | name (name : String)
  /-- To the elements of an array that satisfy a filter. -/
  | filter (tree : Filter.Tree)

/-! ## Qualifiers -/

/-- Whether a path starts like the name of a schema. -/
def isQualified (s : List Char) : Bool := Text.alike (String.ofList (s.take 4)) "urn:"

/-- The part of a text after its last colon, or all of it. -/
def afterLastColon (s : List Char) : List Char := (s.reverse.takeWhile (· != ':')).reverse

/-- A path without its qualifier. -/
def unqualified (s : List Char) : List Char :=
  if isQualified s then
    afterLastColon (s.takeWhile (· != '[')) ++ s.dropWhile (· != '[')
  else s

/-! ## Segments -/

/-- Cuts the rest of a path, where `segment` is the current segment so far, newest first. -/
def segmentsFrom (quoting : Filter.Scanner.Quoting) (bracket : Bool) (segment : List Char) :
    List Char → Except Fault (List (List Char))
  | [] =>
      if quoting ≠ .outside then .error .unterminatedString
      else if bracket then .error .unbalancedOpen
      else .ok [Text.trim segment.reverse]
  | c :: rest =>
      match quoting with
      | .escaped => segmentsFrom .inside bracket (c :: segment) rest
      | .inside =>
          let next := if c = '\\' then .escaped else if c = '"' then .outside else .inside
          segmentsFrom next bracket (c :: segment) rest
      | .outside =>
          if c = '"' then segmentsFrom .inside bracket (c :: segment) rest
          else if c = '[' then
            if bracket then .error .nestedFilter else segmentsFrom .outside true (c :: segment) rest
          else if c = ']' then
            if bracket then segmentsFrom .outside false (c :: segment) rest
            else .error .unbalancedClose
          else if c = '.' ∧ bracket = false then do
            let others ← segmentsFrom .outside false [] rest
            .ok (Text.trim segment.reverse :: others)
          else segmentsFrom .outside bracket (c :: segment) rest

/-- The segments of a path. -/
def segments (s : List Char) : Except Fault (List (List Char)) := do
  let all ← segmentsFrom .outside false [] s
  if all.any List.isEmpty then .error .emptySegment else .ok all

/-! ## Compiling -/

/-- The filter text of a bracket that ends its segment. -/
def bracketed? (s : List Char) : Option (List Char) :=
  if s.getLast? = some ']' then some s.dropLast else none

/-- The steps of a segment with a bracket. -/
def filteredSteps (path : String) (limit : Nat) (segment : List Char) :
    Except Error (List Step) :=
  let name := Text.trim (segment.takeWhile (· != '['))
  let rest := (segment.dropWhile (· != '[')).drop 1
  if name.isEmpty then .error (.malformed path .filterWithoutName)
  else
    match bracketed? rest with
    | none => .error (.malformed path .filterNotLast)
    | some inner =>
        match Filter.read limit (String.ofList inner) with
        | .error cause => .error (.filter path cause)
        | .ok tree => .ok [.name (String.ofList name), .filter tree]

/-- The steps of segments, where `used` tells whether there has been a filter. -/
def stepsFrom (path : String) (limit : Nat) (used : Bool) :
    List (List Char) → Except Error (List Step)
  | [] => .ok []
  | segment :: rest =>
      if segment.contains '[' then
        if used then .error (.malformed path .secondFilter)
        else do
          let front ← filteredSteps path limit segment
          let back ← stepsFrom path limit true rest
          .ok (front ++ back)
      else do
        let back ← stepsFrom path limit used rest
        .ok (.name (String.ofList segment) :: back)

/-- The steps of a path whose filter has at most `limit` bytes. -/
def compile (limit : Nat) (path : String) : Except Error (List Step) :=
  let s := unqualified (Text.trim path.toList)
  if s.isEmpty then .error (.malformed path .emptyPath)
  else
    match segments s with
    | .error fault => .error (.malformed path fault)
    | .ok all => stepsFrom path limit false all

end Scim.Path
