import Scim.Proofs.Json.Footprint
import Scim.Proofs.Outcome
import Scim.Service

/-!
# Changes in place

`Scim.Patch.Application` gives the changed members or an error.  A service works on a copy of the
members that it changes in place, step by step, so an operation that fails has often changed
something already: some fields of a merge, some elements of an array, some members of a value
without a path, a slot on the way down that has been made or taken away.

Here the operations are written down in that form.  Every function gives what has become of the
copy beside how the change ended, as an `Edited`, also where it fails.  What it gives when
it succeeds, and the error when it fails, are those of the function that it is the in-place form of
(`outcome_mergeInPlace` to `outcome_applyAllInPlace`).

`Request.perform` and `Service.perform` put the copy into the place of the members if all
operations have succeeded, and leave the members alone otherwise.
-/

namespace Scim

variable {ε α β : Type}

/-! ## Values that are changed in place -/

namespace Walk.Edited

/-- A change that is finished. -/
def done (v : α) : Edited ε α := ⟨v, .ok ()⟩

/-- A change that ends with an error. -/
def failed (v : α) (cause : ε) : Edited ε α := ⟨v, .error cause⟩

/-- A change that is made at once or not at all. -/
def atOnce (v : α) : Except ε α → Edited ε α
  | .ok w => done w
  | .error cause => failed v cause

/-- A change that goes on where another one has finished. -/
def andThen (e : Edited ε α) (next : α → Edited ε α) : Edited ε α :=
  match e.result with
  | .ok () => next e.value
  | .error _ => e

/-- A change of a part as a change of the whole. -/
def within (e : Edited ε α) (whole : α → β) : Edited ε β := ⟨whole e.value, e.result⟩

/-- The changed value, or the error. -/
def outcome (e : Edited ε α) : Except ε α := e.result.map fun _ => e.value

@[simp] theorem outcome_done (v : α) : (done v : Edited ε α).outcome = .ok v := rfl

@[simp] theorem outcome_failed (v : α) (cause : ε) : (failed v cause).outcome = .error cause := rfl

@[simp] theorem outcome_atOnce (v : α) (x : Except ε α) : (atOnce v x).outcome = x := by
  cases x <;> rfl

theorem atOnce_eq_done {v w : α} {x : Except ε α} : atOnce v x = done w ↔ x = .ok w := by
  cases x <;> simp [atOnce, done, failed]

theorem atOnce_eq_failed {v w : α} {cause : ε} {x : Except ε α} :
    atOnce v x = failed w cause ↔ v = w ∧ x = .error cause := by
  cases x <;> simp [atOnce, done, failed]

@[simp] theorem outcome_andThen (e : Edited ε α) (next : α → Edited ε α) :
    (e.andThen next).outcome = e.outcome >>= fun v => (next v).outcome := by
  obtain ⟨v, result⟩ := e
  cases result <;> rfl

@[simp] theorem outcome_within (e : Edited ε α) (whole : α → β) :
    (e.within whole).outcome = e.outcome >>= fun v => .ok (whole v) := by
  obtain ⟨v, result⟩ := e
  cases result <;> rfl

/-- Changes the items of a list in order, up to the first change that fails. -/
def items (change : α → Edited ε α) : List α → Edited ε (List α)
  | [] => done []
  | v :: rest =>
      match change v with
      | ⟨w, .ok ()⟩ => (items change rest).within (w :: ·)
      | ⟨w, .error cause⟩ => failed (w :: rest) cause

@[simp] theorem outcome_items (change : α → Edited ε α) (vs : List α) :
    (items change vs).outcome = vs.mapM fun v => (change v).outcome := by
  induction vs with
  | nil => rfl
  | cons v rest ih =>
      rw [List.mapM_cons, items]
      rcases change v with ⟨w, _ | _⟩
      · rfl
      · simp only [outcome_within, ih]
        rfl

end Walk.Edited

namespace Patch

open Walk (Edited)

variable {limit index : Nat} {path key : String} {a s element root : Attribute}
  {members fields : Members} {step : Path.Step} {steps rest : List Path.Step}

/-! ## The last step of a path -/

/-- Puts every field into the slot of its sub-attribute, up to a field that belongs to none. -/
def mergeInPlace (path : String) (a : Attribute) (members : Members) :
    Members → Edited Error Members
  | [] => .done members
  | (name, v) :: rest =>
      match a.sub? name with
      | some s => mergeInPlace path a (members.put (members.slot s.name) v) rest
      | none => .failed members (.path (.missing path name))

@[simp] theorem outcome_mergeInPlace :
    (mergeInPlace path a members fields).outcome = merge path a members fields := by
  induction fields generalizing members with
  | nil => rfl
  | cons field rest ih =>
      obtain ⟨name, v⟩ := field
      rw [mergeInPlace, merge]
      cases a.sub? name with
      | none => rfl
      | some s => exact ih

namespace Context

variable {c : Context} {v : Json} {vs : List Json} {accepts : Json → Bool} {filtered : Bool}

/-- Adds to the slot of an attribute.  A slot that is to hold an object holds one before the
first field is put into it. -/
def addInPlace (c : Context) (a : Attribute) (members : Members) : Edited Error Members :=
  if a.multiValued then .atOnce members (c.addTo a members)
  else if a.isComplex then
    match c.value with
    | .object fields =>
        let key := members.slot a.name
        let existing := ((members.get? key).bind Json.object?).getD []
        (mergeInPlace c.path a existing fields).within fun merged =>
          members.put key (.object merged)
    | _ => .failed members (.invalidModification (.complexNeedsObject a.name))
  else .atOnce members (c.addTo a members)

@[simp] theorem outcome_addInPlace : (c.addInPlace a members).outcome = c.addTo a members := by
  unfold addInPlace
  split
  · simp
  split
  · rename_i hmulti hcomplex
    simp only [addTo, hmulti, hcomplex]
    cases c.value with
    | object fields =>
        simp only [Edited.outcome_within, outcome_mergeInPlace]
        rfl
    | _ => rfl
  · simp

/-- Changes the slot of an attribute. -/
def changeInPlace (c : Context) (a : Attribute) (members : Members) : Edited Error Members :=
  match c.verb with
  | .add => c.addInPlace a members
  | .remove | .replace => .atOnce members (c.change a members)

@[simp] theorem outcome_changeInPlace :
    (c.changeInPlace a members).outcome = c.change a members := by
  unfold changeInPlace change
  cases c.verb <;> simp

/-- Takes the last step of a path. -/
def lastInPlace (c : Context) (a : Attribute) (members : Members) :
    Path.Step → Edited Error Members
  | .filter _ => .failed members (.path (.filterOnSingleValue c.path))
  | .name name =>
      match a.sub? name with
      | some s => c.changeInPlace s members
      | none => .failed members (.path (.missing c.path name))

@[simp] theorem outcome_lastInPlace :
    (c.lastInPlace a members step).outcome = c.last a members step := by
  cases step with
  | filter tree => rfl
  | name name =>
      rw [lastInPlace, last]
      cases a.sub? name <;> simp

/-! ## Steps at an array -/

/-- Takes the last step of a path in one element of an array. -/
def lastInElementInPlace (c : Context) (element : Attribute) (step : Path.Step) :
    Json → Edited Error Json
  | .object members => (c.lastInPlace element members step).within .object
  | v => .failed v (c.shapeError element.name v)

@[simp] theorem outcome_lastInElementInPlace :
    (c.lastInElementInPlace element step v).outcome = c.lastInElement element step v := by
  cases v with
  | object members => simp [lastInElementInPlace, lastInElement]
  | _ => rfl

/-- Takes the steps that are left at an array, of which a filter is not one. -/
def throughElementsInPlace (c : Context) (element : Attribute) (filtered : Bool)
    (accepts : Json → Bool) (vs : List Json) : List Path.Step → Edited Error (List Json)
  | [] => .atOnce vs (c.changeElements filtered accepts vs)
  | [step] =>
      if filtered && !vs.any accepts && c.verb = .replace then .failed vs (.noTarget c.path)
      else
        .items (fun v => if accepts v then c.lastInElementInPlace element step v else .done v) vs
  | _ => .failed vs (.path (.malformed c.path .deepArray))

@[simp] theorem outcome_throughElementsInPlace :
    (c.throughElementsInPlace element filtered accepts vs steps).outcome =
      c.throughElements element filtered accepts vs steps := by
  rcases steps with _ | ⟨step, _ | ⟨next, rest⟩⟩
  · simp [throughElementsInPlace, throughElements]
  · rw [throughElementsInPlace, throughElements, changeInElements]
    split
    · rfl
    · rw [Edited.outcome_items]
      congr 1
      funext v
      split <;> simp
  · rfl

/-- Takes the steps that are left at an array of an attribute. -/
def throughArrayInPlace (c : Context) (a : Attribute) (vs : List Json) :
    List Path.Step → Edited Error (List Json)
  | .filter tree :: rest =>
      c.throughElementsInPlace a.element true (tree.accepts a.element) vs rest
  | steps => c.throughElementsInPlace a.element false (fun _ => true) vs steps

@[simp] theorem outcome_throughArrayInPlace :
    (c.throughArrayInPlace a vs steps).outcome = c.throughArray a vs steps := by
  unfold throughArrayInPlace throughArray
  split <;> simp

/-! ## Steps on the way down -/

/-- Goes on in the value of a slot.  What is `null` there is taken away and cannot be entered. -/
def enterSlot (c : Context) (s : Attribute) (key : String) (members : Members)
    (below : Json → Edited Error Json) : Edited Error Members :=
  match members.get? key with
  | some .null => .failed (members.remove key) (c.shapeError s.name .null)
  | some child => (below child).within fun changed => members.put key changed
  | none => .failed members (.failed s!"slot '{key}' vanished after creation")

/-- Opens the slot of an attribute on the way down, which makes what is missing there, and goes on
in it. -/
def descendInPlace (c : Context) (s : Attribute) (members : Members)
    (below : Json → Edited Error Json) : Edited Error Members :=
  let key := members.slot s.name
  if ((members.get? key).getD .null).isNull then
    match c.verb with
    | .add =>
        if s.multiValued then .done members
        else c.enterSlot s key (members.put key s.zeroValue) below
    | .remove => .done members
    | .replace => .failed members (.noTarget c.path)
  else c.enterSlot s key members below

theorem outcome_descendInPlace (below : Json → Edited Error Json) :
    (c.descendInPlace s members below).outcome = (do
      match ← c.openSlot s ((members.get? (members.slot s.name)).getD .null) with
      | .done => .ok members
      | .value v => do
          let changed ← (below v).outcome
          .ok (members.put (members.slot s.name) changed)) := by
  simp only [descendInPlace, openSlot]
  split
  · cases c.verb with
    | add =>
        by_cases hmulti : s.multiValued = true
        · simp [hmulti]
        by_cases hcomplex : s.isComplex = true
        · simp [hmulti, hcomplex, Attribute.zeroValue, enterSlot]
        · simp [hmulti, hcomplex, Attribute.zeroValue, enterSlot]
    | remove => rfl
    | replace => rfl
  · rename_i hnull
    cases hget : members.get? (members.slot s.name) with
    | none =>
        rw [hget] at hnull
        exact absurd rfl hnull
    | some v =>
        rw [hget] at hnull
        rw [enterSlot, hget]
        cases v with
        | null => exact absurd rfl hnull
        | _ => simp

/-- Takes a step of a path and those after it. -/
def alongInPlace (c : Context) (a : Attribute) (members : Members) (step : Path.Step) :
    List Path.Step → Edited Error Members
  | [] => c.lastInPlace a members step
  | next :: rest =>
      match step with
      | .filter _ => .failed members (.path (.filterOnSingleValue c.path))
      | .name name =>
          match a.sub? name with
          | none => .failed members (.path (.missing c.path name))
          | some s =>
              c.descendInPlace s members fun
                | .object inner => (c.alongInPlace s inner next rest).within .object
                | .array vs => (c.throughArrayInPlace s vs (next :: rest)).within .array
                | v => .failed v (c.shapeError s.name v)

@[simp] theorem outcome_alongInPlace :
    (c.alongInPlace a members step rest).outcome = c.along a members step rest := by
  induction rest generalizing a members step with
  | nil => simp [alongInPlace, along]
  | cons next rest ih =>
      cases step with
      | filter tree => rfl
      | name name =>
          simp only [alongInPlace, along]
          cases a.sub? name with
          | none => rfl
          | some s =>
              simp only [outcome_descendInPlace]
              congr 1
              funext slot
              rcases slot with v | _
              · cases v <;> simp [ih]
              · rfl

end Context

/-! ## Operations and requests -/

/-- Performs an operation for every member of a value, up to one that fails. -/
def spreadOutInPlace (verb : Verb) (root : Attribute) (members : Members) :
    Members → Edited Error Members
  | [] => .done members
  | (key, v) :: rest =>
      (Context.lastInPlace ⟨verb, "", v⟩ root members (.name key)).andThen fun changed =>
        spreadOutInPlace verb root changed rest

@[simp] theorem outcome_spreadOutInPlace {verb : Verb} :
    (spreadOutInPlace verb root members fields).outcome = spreadOut verb root members fields := by
  induction fields generalizing members with
  | nil => rfl
  | cons field rest ih => simp [spreadOutInPlace, spreadOut, ih]

namespace Operation

variable {o : Operation}

/-- Performs an operation without a path. -/
def applyPathlessInPlace (o : Operation) (root : Attribute) (members : Members) :
    Edited Error Members :=
  if o.verb = .remove then .failed members (.noTarget "")
  else
    match o.value with
    | .object fields => spreadOutInPlace o.verb root members fields
    | _ => .failed members (.invalidModification (.pathlessNeedsObject o.verb))

@[simp] theorem outcome_applyPathlessInPlace :
    (o.applyPathlessInPlace root members).outcome = o.applyPathless root members := by
  unfold applyPathlessInPlace applyPathless
  split
  · rfl
  · cases o.value <;> simp

/-- Performs an operation, where the filter of its path has at most `limit` bytes. -/
def applyInPlace (limit : Nat) (root : Attribute) (members : Members) (o : Operation) :
    Edited Error Members :=
  if o.place.isEmpty then o.applyPathlessInPlace root members
  else
    match Path.compile limit o.place with
    | .error cause => .failed members (.path cause)
    | .ok [] => o.applyPathlessInPlace root members
    | .ok (step :: rest) => Context.alongInPlace ⟨o.verb, o.place, o.value⟩ root members step rest

@[simp] theorem outcome_applyInPlace :
    (o.applyInPlace limit root members).outcome = o.apply limit root members := by
  unfold applyInPlace apply
  split
  · simp
  · split <;> simp_all

end Operation

/-- Performs operations in order up to one that fails, where `index` is the number of the first
one. -/
def applyAllInPlace (limit : Nat) (root : Attribute) (index : Nat) (members : Members) :
    List Operation → Edited Error Members
  | [] => .done members
  | o :: rest =>
      match o.applyInPlace limit root members with
      | ⟨changed, .ok ()⟩ => applyAllInPlace limit root (index + 1) changed rest
      | ⟨left, .error cause⟩ => .failed left (.operation index cause)

@[simp] theorem outcome_applyAllInPlace {operations : List Operation} :
    (applyAllInPlace limit root index members operations).outcome =
      applyAll limit root index members operations := by
  induction operations generalizing index members with
  | nil => rfl
  | cons o rest ih =>
      rw [applyAllInPlace, applyAll, ← Operation.outcome_applyInPlace]
      rcases o.applyInPlace limit root members with ⟨changed, _ | _⟩
      · rfl
      · exact ih

/-- An operation that fails can leave a copy that has been changed. -/
example :
    applyAllInPlace limit Schema.group.root 0 [("displayName", .string "Ops")]
      [⟨.replace, none, .object [("displayName", .string "Operators"), ("nickname", .null)]⟩] =
    .failed [("displayName", .string "Operators")]
      (.operation 0 (.path (.missing "" "nickname"))) := rfl

/-- Changes a copy of the members and puts it into their place if the request succeeds. -/
def Request.perform (limit : Nat) (schema : Schema) (members : Members) (r : Request) :
    Edited Error Members :=
  if r.isDeclared then
    match applyAllInPlace limit schema.root 0 members r.operations with
    | ⟨copy, .ok ()⟩ => .done copy
    | ⟨_, .error cause⟩ => .failed members cause
  else .failed members .invalidSchema

theorem Request.perform_eq {schema : Schema} {r : Request} :
    r.perform limit schema members = .atOnce members (r.apply limit schema members) := by
  unfold Request.perform Request.apply
  split
  · rw [← outcome_applyAllInPlace]
    rcases applyAllInPlace limit schema.root 0 members r.operations with ⟨copy, _ | _⟩ <;> rfl
  · rfl

end Patch

/-- Changes a resource of a schema in place. -/
def Service.perform (s : Service) (schema : Schema) (r : Resource) (request : Patch.Request) :
    Walk.Edited Patch.Error Resource :=
  if s.limits.maxPatchOperations < request.operations.length then
    .failed r (.tooManyOperations request.operations.length s.limits.maxPatchOperations)
  else (request.perform s.limits.maxFilterLength schema r.members).within .mk

/-- A resource is changed in place as `Service.patch` says, or stays as it is. -/
theorem Service.perform_eq (s : Service) (schema : Schema) (r : Resource)
    (request : Patch.Request) :
    s.perform schema r request = .atOnce r (s.patch schema r request) := by
  unfold Service.perform Service.patch
  split
  · rfl
  · rw [Patch.Request.perform_eq]
    cases request.apply s.limits.maxFilterLength schema r.members <;> rfl

end Scim
