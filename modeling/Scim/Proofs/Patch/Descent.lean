import Scim.Proofs.Json.Footprint
import Scim.Proofs.Path.Names
import Scim.Proofs.Schema.Soundness
import Scim.Patch.Application

/-!
# The way down

How an operation goes down from the top, in equations that the other modules use instead of the
definitions.  A request with one operation does what the operation does.  An operation whose path
compiles takes the steps of the path (`Operation.apply_along`).  A step of a name goes on in
the object (`Context.along_object`) or in the array (`Context.along_array`) that stands under the
name, and puts back what becomes of it.
-/

namespace Scim.Patch

variable {limit : Nat} {schema : Schema} {root a s : Attribute} {members : Members}
  {o : Operation} {verb : Verb} {name path : String} {v : Json} {items : List Json}
  {inner : Members} {step : Path.Step} {rest : List Path.Step}

/-- A request of operations does what they do in order. -/
theorem Request.apply_ofOperations {operations : List Operation} :
    (Request.ofOperations operations).apply limit schema members =
      applyAll limit schema.root 0 members operations :=
  if_pos (beq_self_eq_true [schemaId])

/-- A request with one operation fails or succeeds with it. -/
theorem Request.apply_one :
    (Request.ofOperations [o]).apply limit schema members =
      (o.apply limit schema.root members).mapError (.operation 0) := by
  rw [apply_ofOperations, applyAll]
  cases o.apply limit schema.root members <;> rfl

/-- An operation whose path compiles goes along the steps of the path. -/
theorem Operation.apply_along (hcompile : Path.compile limit o.place = .ok (step :: rest)) :
    o.apply limit root members = Context.along ⟨o.verb, o.place, o.value⟩ root members step rest := by
  have hplace : ¬ o.place.isEmpty = true := by
    intro hempty
    obtain ⟨hne, _⟩ := Path.segments_of_compile hcompile
    rw [String.isEmpty_iff.mp hempty] at hne
    exact hne rfl
  rw [apply, if_neg hplace, hcompile]

theorem Operation.apply_of_compile (htrim : Text.trim path.toList = path.toList)
    (hcompile : Path.compile limit path = .ok (step :: rest)) :
    (Operation.mk verb (some path) v).apply limit root members =
      Context.along ⟨verb, path, v⟩ root members step rest := by
  have hplace : (Operation.mk verb (some path) v).place = path := by
    rw [Operation.place, Option.getD_some, htrim, String.ofList_toList]
  rw [Operation.apply_along (hplace.symm ▸ hcompile), hplace]

/-- An operation at joined names goes along the names. -/
theorem apply_dotted {names : List String} (hnames : ∀ n ∈ name :: names, Path.IsName n.toList) :
    (Operation.mk verb (some (".".intercalate (name :: names))) v).apply limit root members =
      Context.along ⟨verb, ".".intercalate (name :: names), v⟩ root members (.name name)
        (names.map .name) := by
  obtain ⟨_, htrim, _⟩ := Path.trim_dotted hnames (List.cons_ne_nil _ _)
  exact Operation.apply_of_compile htrim
    (Path.compile_dotted hnames (List.cons_ne_nil _ _))

namespace Context

variable {c : Context}

/-- What a step with others behind it makes of members.  It leaves them if nothing is to be done
below the name, or puts back what the other steps make of the value in which they go on. -/
inductive Enters (c : Context) (a : Attribute) (members : Members) (next : Path.Step)
    (rest : List Path.Step) : Path.Step → Members → Prop where
  | done {name : String} {s : Attribute} (hs : a.sub? name = some s)
      (hopen : c.openSlot s (members.valueOf s.name) = .ok .done) :
      Enters c a members next rest (.name name) members
  | object {name : String} {s : Attribute} {inner made : Members} (hs : a.sub? name = some s)
      (hopen : c.openSlot s (members.valueOf s.name) = .ok (.value (.object inner)))
      (hmade : c.along s inner next rest = .ok made) :
      Enters c a members next rest (.name name) (members.put (members.slot s.name) (.object made))
  | array {name : String} {s : Attribute} {items made : List Json} (hs : a.sub? name = some s)
      (hopen : c.openSlot s (members.valueOf s.name) = .ok (.value (.array items)))
      (hmade : c.throughArray s items (next :: rest) = .ok made) :
      Enters c a members next rest (.name name) (members.put (members.slot s.name) (.array made))

/-- A step with others behind it, once the slot of its name has been looked up. -/
theorem along_cons (hs : a.sub? name = some s) (next : Path.Step) (rest : List Path.Step) :
    c.along a members (.name name) (next :: rest) = (do
      match ← c.openSlot s (members.valueOf s.name) with
      | .done => .ok members
      | .value (.object inner) => do
          let made ← c.along s inner next rest
          .ok (members.put (members.slot s.name) (.object made))
      | .value (.array items) => do
          let made ← c.throughArray s items (next :: rest)
          .ok (members.put (members.slot s.name) (.array made))
      | .value v => .error (c.shapeError s.name v)) := by
  have hslot : (members.get? (members.slot s.name)).getD .null = members.valueOf s.name := by
    rw [Members.get?_slot, Members.valueOf]
  rw [along.eq_def]
  dsimp only
  rw [hs]
  dsimp only
  rewrite [hslot]
  cases c.openSlot s (members.valueOf s.name) with
  | error cause => rfl
  | ok slot =>
      cases slot with
      | done => rfl
      | value v => cases v <;> rfl

theorem along_iff {next : Path.Step} {changed : Members} :
    c.along a members step (next :: rest) = .ok changed ↔
      c.Enters a members next rest step changed := by
  constructor
  · intro h
    cases step with
    | filter tree => cases h
    | name name =>
        cases hs : a.sub? name with
        | none =>
            rw [along, hs] at h
            cases h
        | some s =>
            rw [along_cons hs] at h
            obtain ⟨slot, hopen, h⟩ := ok_of_bind h
            cases slot with
            | done =>
                cases h
                exact .done hs hopen
            | value v =>
                cases v with
                | object inner =>
                    obtain ⟨made, hmade, h⟩ := ok_of_bind h
                    cases h
                    exact .object hs hopen hmade
                | array items =>
                    obtain ⟨made, hmade, h⟩ := ok_of_bind h
                    cases h
                    exact .array hs hopen hmade
                | _ => cases h
  · intro h
    cases h with
    | done hs hopen =>
        rw [along_cons hs, hopen]
        rfl
    | object hs hopen hmade =>
        rw [along_cons hs, hopen, ok_bind]
        dsimp only
        rw [hmade]
        rfl
    | array hs hopen hmade =>
        rw [along_cons hs, hopen, ok_bind]
        dsimp only
        rw [hmade]
        rfl

/-- A step of a name under which an object is opened goes on in the object. -/
theorem along_object (hs : a.sub? name = some s)
    (hopen : c.openSlot s (members.valueOf s.name) = .ok (.value (.object inner)))
    (next : Path.Step) (rest : List Path.Step) :
    c.along a members (.name name) (next :: rest) =
      (c.along s inner next rest).map fun made =>
        members.put (members.slot s.name) (.object made) := by
  rw [along_cons hs, hopen, ok_bind]
  dsimp only
  cases c.along s inner next rest <;> rfl

/-- A step of a name with an array under it goes on in the array. -/
theorem along_array (hs : a.sub? name = some s) (hitems : members.valueOf s.name = .array items)
    (next : Path.Step) (rest : List Path.Step) :
    c.along a members (.name name) (next :: rest) =
      (c.throughArray s items (next :: rest)).map fun made =>
        members.put (members.slot s.name) (.array made) := by
  rw [along_cons hs, hitems]
  show (c.throughArray s items (next :: rest) >>= _) = _
  cases c.throughArray s items (next :: rest) <;> rfl

/-- An object that has been put under a name, and is left by the steps behind it, is left. -/
theorem along_put_object {made : Members} {next : Path.Step} (hs : a.sub? name = some s)
    (hmade : c.along s made next rest = .ok made) :
    c.along a (members.put (members.slot s.name) (.object made)) (.name name) (next :: rest) =
      .ok (members.put (members.slot s.name) (.object made)) := by
  rw [along_cons hs, Members.valueOf_put_slot, Members.slot_put_slot]
  show (c.along s made next rest >>= _) = _
  rw [hmade, ok_bind, Members.put_put_self]

/-- An array that has been put under a name, and is left by the steps behind it, is left. -/
theorem along_put_array {made : List Json} {next : Path.Step} (hs : a.sub? name = some s)
    (hmade : c.throughArray s made (next :: rest) = .ok made) :
    c.along a (members.put (members.slot s.name) (.array made)) (.name name) (next :: rest) =
      .ok (members.put (members.slot s.name) (.array made)) := by
  rw [along_cons hs, Members.valueOf_put_slot, Members.slot_put_slot]
  show (c.throughArray s made (next :: rest) >>= _) = _
  rw [hmade, ok_bind, Members.put_put_self]

/-- A name at an array is looked up in all elements. -/
theorem throughArray_name :
    c.throughArray a items [.name name] = items.mapM (c.lastInElement a.element (.name name)) := by
  simp [throughArray, throughElements, changeInElements]

end Context

end Scim.Patch
