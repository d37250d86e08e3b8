import Scim.Evaluation.Comparison
import Scim.Path.Steps

/-!
# Where a path leads

The names of a path select a descriptor below an attribute and a value below a value.

* `null` has `null` below every name.
* An object has the value of the member that is spelled like the attribute, or `null`.
* An array has what its elements have, collected in order.  `null` is left out and arrays are
  spread, so the result is flat.
* Other values have nothing below them.

A filter step keeps the elements of a multi-valued attribute that it accepts.  What it accepts is
a parameter here.
-/

namespace Scim.Path

/-- The test by which a filter step keeps elements. -/
abbrev Acceptance := Filter.Tree → Attribute → Json → Bool

/-- The descriptor that the names of a path lead to. -/
def target (path : String) (a : Attribute) : List Step → Except Error Attribute
  | [] => .ok a
  | .filter _ :: rest => target path a rest
  | .name name :: rest =>
      match a.sub? name with
      | some s => target path s rest
      | none => .error (.missing path name)

/-- What a collected value adds to an array. -/
def spread : Json → List Json
  | .null => []
  | .array items => items
  | v => [v]

mutual

/-- Steps to the member of a name and goes on with `next`. -/
def descendInto (path name : String) (next : Attribute → Json → Except Error Json)
    (a : Attribute) : Json → Except Error Json
  | .null => .ok .null
  | .object members =>
      match a.sub? name with
      | some s =>
          match Members.named? members s.name with
          | some child => next s child
          | none => .ok .null
      | none => .error (.missing path name)
  | .array items => do
      let found ← descendIntoAll path name next a items
      .ok (.array found)
  | .bool _ => .error (.shape path name "boolean")
  | .number _ => .error (.shape path name "number")
  | .string _ => .error (.shape path name "string")
termination_by structural v => v

/-- Steps to the members of a name in every value and collects what is found. -/
def descendIntoAll (path name : String) (next : Attribute → Json → Except Error Json)
    (a : Attribute) : List Json → Except Error (List Json)
  | [] => .ok []
  | v :: rest => do
      let found ← descendInto path name next a v
      let others ← descendIntoAll path name next a rest
      .ok (spread found ++ others)
termination_by structural vs => vs

end

/-- The value that the steps of a path lead to. -/
def descend (accepts : Acceptance) (path : String) :
    List Step → Attribute → Json → Except Error Json
  | [], _, v => .ok v
  | .name name :: rest, a, v => descendInto path name (descend accepts path rest) a v
  | .filter tree :: rest, a, v =>
      match v with
      | .null => .ok .null
      | .array items =>
          if a.multiValued then
            descend accepts path rest a (.array (items.filter (accepts tree a.element)))
          else .error (.filterOnSingleValue path)
      | _ => .error (.filterOnSingleValue path)

/-- What the steps of a path lead to, with its descriptor. -/
def follow (accepts : Acceptance) (path : String) (steps : List Step) (a : Attribute) (v : Json) :
    Except Error Described := do
  let descriptor ← target path a steps
  let value ← descend accepts path steps a v
  .ok ⟨value, descriptor⟩

end Scim.Path
