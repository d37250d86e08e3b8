import Scim.Evaluation.Acceptance
import Scim.Patch.Request
import Scim.Schema.Basic

/-!
# Applying changes

An operation follows the names of its path from the top of a resource and changes one slot.

* `remove` empties the slot, `replace` puts the value into it, and a `replace` by `null` empties
  it too.
* `add` appends to a multi-valued attribute what it does not hold yet, merges into a complex
  attribute, and puts the value into any other slot.
* On the way down `add` makes the objects that are missing, `remove` is done where something is
  missing, and `replace` then has no target.
* An operation at an array works on its elements, on all of them or on those that the filter of
  the path selects.

Without a path, every member of the value is an operation of its own at the top.

The result is either the changed members or an error, so nothing is ever changed by halves.
-/

namespace Scim.Patch

/-- What stays the same while an operation goes down. -/
structure Context where
  /-- What to do. -/
  verb : Verb
  /-- The path as written, for messages. -/
  path : String
  /-- What to do it with. -/
  value : Json

/-- The values that an addition to an array brings. -/
def incoming : Json → List Json
  | .array items => items
  | .null => []
  | v => [v]

/-- The items with a value at the end, unless they hold it already. -/
def appendNew (items : List Json) (v : Json) : List Json :=
  if items.contains v then items else items ++ [v]

/-- The items with those of the added values that they do not hold yet. -/
def appendAllNew (items added : List Json) : List Json := added.foldl appendNew items

/-- Puts every field into the slot of its sub-attribute. -/
def merge (path : String) (a : Attribute) (members : Members) : Members → Except Error Members
  | [] => .ok members
  | (name, v) :: rest =>
      match a.sub? name with
      | some s => merge path a (members.put (members.slot s.name) v) rest
      | none => .error (.path (.missing path name))

namespace Context

/-- The error of a value that has no members to step into. -/
def shapeError (c : Context) (segment : String) (found : Json) : Error :=
  .path (.shape c.path segment found.kindName)

/-- Adds to the slot of an attribute. -/
def addTo (c : Context) (a : Attribute) (members : Members) : Except Error Members :=
  let key := members.slot a.name
  if a.multiValued then
    let items := ((members.get? key).bind Json.array?).getD []
    .ok (members.put key (.array (appendAllNew items (incoming c.value))))
  else if a.isComplex then
    match c.value with
    | .object fields => do
        let existing := ((members.get? key).bind Json.object?).getD []
        let merged ← merge c.path a existing fields
        .ok (members.put key (.object merged))
    | _ => .error (.invalidModification (.complexNeedsObject a.name))
  else .ok (members.put key c.value)

/-- Changes the slot of an attribute. -/
def change (c : Context) (a : Attribute) (members : Members) : Except Error Members :=
  match c.verb with
  | .add => c.addTo a members
  | .remove => .ok (members.remove (members.slot a.name))
  | .replace =>
      if c.value.isNull then .ok (members.remove (members.slot a.name))
      else .ok (members.put (members.slot a.name) c.value)

/-- Takes the last step of a path. -/
def last (c : Context) (a : Attribute) (members : Members) : Path.Step → Except Error Members
  | .filter _ => .error (.path (.filterOnSingleValue c.path))
  | .name name =>
      match a.sub? name with
      | some s => c.change s members
      | none => .error (.path (.missing c.path name))

/-- Takes the last step of a path in one element of an array. -/
def lastInElement (c : Context) (element : Attribute) (step : Path.Step) :
    Json → Except Error Json
  | .object members => do
      let changed ← c.last element members step
      .ok (.object changed)
  | v => .error (c.shapeError element.name v)

/-- Changes the selected elements of an array themselves. -/
def changeElements (c : Context) (filtered : Bool) (selects : Json → Bool) (items : List Json) :
    Except Error (List Json) :=
  match c.verb with
  | .add =>
      if filtered then .error (.invalidModification .addToSelection)
      else .ok (appendAllNew items (incoming c.value))
  | .replace =>
      if filtered && !items.any selects then .error (.noTarget c.path)
      else .ok (items.map fun v => if selects v then c.value else v)
  | .remove => .ok (items.filter fun v => !selects v)

/-- Takes the last step of a path in the selected elements of an array. -/
def changeInElements (c : Context) (element : Attribute) (filtered : Bool) (selects : Json → Bool)
    (step : Path.Step) (items : List Json) : Except Error (List Json) :=
  if filtered && !items.any selects && c.verb = .replace then .error (.noTarget c.path)
  else items.mapM fun v => if selects v then c.lastInElement element step v else .ok v

/-- Takes the steps that are left at an array, of which a filter is not one. -/
def throughElements (c : Context) (element : Attribute) (filtered : Bool) (selects : Json → Bool)
    (items : List Json) : List Path.Step → Except Error (List Json)
  | [] => c.changeElements filtered selects items
  | [step] => c.changeInElements element filtered selects step items
  | _ => .error (.path (.malformed c.path .deepArray))

/-- Takes the steps that are left at an array of an attribute. -/
def throughArray (c : Context) (a : Attribute) (items : List Json) :
    List Path.Step → Except Error (List Json)
  | .filter tree :: rest =>
      c.throughElements a.element true (tree.accepts a.element) items rest
  | steps => c.throughElements a.element false (fun _ => true) items steps

/-- What an operation finds in a slot on its way down. -/
inductive Slot where
  /-- A value to go on in. -/
  | value (v : Json)
  /-- Nothing, and nothing is left to do. -/
  | done

/-- Opens the slot of an attribute on the way down. -/
def openSlot (c : Context) (a : Attribute) (found : Json) : Except Error Slot :=
  if found.isNull then
    match c.verb with
    | .add =>
        if a.multiValued then .ok .done
        else if a.isComplex then .ok (.value a.zeroValue)
        else .error (c.shapeError a.name .null)
    | .remove => .ok .done
    | .replace => .error (.noTarget c.path)
  else .ok (.value found)

/-- Takes a step of a path and those after it. -/
def along (c : Context) (a : Attribute) (members : Members) (step : Path.Step) :
    List Path.Step → Except Error Members
  | [] => c.last a members step
  | next :: rest =>
      match step with
      | .filter _ => .error (.path (.filterOnSingleValue c.path))
      | .name name =>
          match a.sub? name with
          | none => .error (.path (.missing c.path name))
          | some s => do
              let key := members.slot s.name
              match ← c.openSlot s ((members.get? key).getD .null) with
              | .done => .ok members
              | .value (.object inner) => do
                  let changed ← c.along s inner next rest
                  .ok (members.put key (.object changed))
              | .value (.array items) => do
                  let changed ← c.throughArray s items (next :: rest)
                  .ok (members.put key (.array changed))
              | .value v => .error (c.shapeError s.name v)

end Context

/-! ## Operations and requests -/

/-- Performs an operation for every member of a value. -/
def spreadOut (verb : Verb) (root : Attribute) (members : Members) :
    Members → Except Error Members
  | [] => .ok members
  | (key, v) :: rest => do
      let changed ← Context.last ⟨verb, "", v⟩ root members (.name key)
      spreadOut verb root changed rest

/-- Performs an operation without a path. -/
def Operation.applyPathless (o : Operation) (root : Attribute) (members : Members) :
    Except Error Members :=
  if o.verb = .remove then .error (.noTarget "")
  else
    match o.value with
    | .object fields => spreadOut o.verb root members fields
    | _ => .error (.invalidModification (.pathlessNeedsObject o.verb))

/-- Performs an operation, where the filter of its path has at most `limit` bytes. -/
def Operation.apply (limit : Nat) (root : Attribute) (members : Members) (o : Operation) :
    Except Error Members :=
  if o.place.isEmpty then o.applyPathless root members
  else
    match Path.compile limit o.place with
    | .error cause => .error (.path cause)
    | .ok [] => o.applyPathless root members
    | .ok (step :: rest) => Context.along ⟨o.verb, o.place, o.value⟩ root members step rest

/-- Performs operations in order, where `index` is the number of the first one. -/
def applyAll (limit : Nat) (root : Attribute) (index : Nat) (members : Members) :
    List Operation → Except Error Members
  | [] => .ok members
  | o :: rest =>
      match o.apply limit root members with
      | .ok changed => applyAll limit root (index + 1) changed rest
      | .error cause => .error (.operation index cause)

/-- The members after a request. -/
def Request.apply (limit : Nat) (schema : Schema) (members : Members) (r : Request) :
    Except Error Members :=
  if r.isDeclared then applyAll limit schema.root 0 members r.operations
  else .error .invalidSchema

end Scim.Patch
