import Scim.Proofs.Patch.Locality

/-!
# Operations without a path

An addition or a replacement without a path does what a request does that has one operation for
every member of its value, with the key as its path (`Request.apply_expanded`).

The two go down in the same way.  A plain key is a path of one name, and the path of an operation
is in its messages only (`Context.toOption_last`).  That the operations may come in any order is a
fact about steps that commute in pairs (`foldlM_perm`): each of them acts at the name of its
attribute, and keys that are not alike name different attributes.
-/

namespace Scim.Patch

variable {limit index : Nat} {verb : Verb} {path path' name : String} {v : Json}
  {root a : Attribute} {members fields changed : Members} {operations : List Operation}
  {step : Path.Step}

/-! ## What the path of an operation is for -/

/-- Two operations whose fields are merged fail together. -/
theorem toOption_merge : (merge path a members fields).toOption =
    (merge path' a members fields).toOption := by
  induction fields generalizing members with
  | nil => rfl
  | cons field rest ih =>
      obtain ⟨name, v⟩ := field
      rw [merge, merge]
      cases a.sub? name with
      | none => rfl
      | some s => exact ih

namespace Context

theorem toOption_addTo : (addTo ⟨verb, path, v⟩ a members).toOption =
    (addTo ⟨verb, path', v⟩ a members).toOption := by
  unfold addTo
  dsimp only
  split
  case isTrue => rfl
  case isFalse =>
      split
      case isTrue =>
          cases v with
          | object fields =>
              dsimp only
              rw [toOption_bind, toOption_bind, toOption_merge]
          | _ => rfl
      case isFalse => rfl

/-- The path of an operation is in its messages only. -/
theorem toOption_last : (last ⟨verb, path, v⟩ a members step).toOption =
    (last ⟨verb, path', v⟩ a members step).toOption := by
  cases step with
  | filter tree => rfl
  | name name =>
      rw [last, last]
      cases a.sub? name with
      | none => rfl
      | some s =>
          dsimp only
          unfold change
          cases verb with
          | add => exact toOption_addTo
          | remove => rfl
          | replace => rfl

end Context

/-! ## One operation for every member -/

/-- What an operation does to members at the attribute that a key names, unless it fails. -/
def atKey (verb : Verb) (root : Attribute) (members : Members) (field : String × Json) :
    Option Members :=
  (Context.last ⟨verb, "", field.2⟩ root members (.name field.1)).toOption

/-- An operation whose path is a plain key does what it does there. -/
theorem toOption_apply_plain (limit : Nat) (hname : Path.IsPlain name) :
    ((Operation.mk verb (some name) v).apply limit root members).toOption =
      atKey verb root members (name, v) := by
  rw [Operation.apply_of_compile hname.isName.trimmed (Path.compile_name hname.isName)]
  exact Context.toOption_last

theorem toOption_spreadOut : (spreadOut verb root members fields).toOption =
    fields.foldlM (atKey verb root) members := by
  induction fields generalizing members with
  | nil => rfl
  | cons field rest ih =>
      rw [spreadOut, toOption_bind, List.foldlM_cons]
      exact congrArg _ (funext fun _ => ih)

/-- Operations whose paths are plain keys do what they do at the keys, one after the other. -/
theorem toOption_applyAll (hplain : ∀ m ∈ fields, Path.IsPlain m.1) :
    (applyAll limit root index members (fields.map fun m => ⟨verb, some m.1, m.2⟩)).toOption =
      fields.foldlM (atKey verb root) members := by
  induction fields generalizing index members with
  | nil => rfl
  | cons field rest ih =>
      obtain ⟨hfield, hrest⟩ := List.forall_mem_cons.mp hplain
      rw [List.map_cons, applyAll, List.foldlM_cons, ← toOption_apply_plain limit hfield]
      cases (Operation.mk verb (some field.1) field.2).apply limit root members with
      | error cause => rfl
      | ok reached => exact ih hrest

/-! ## The order of the operations -/

theorem atKey_missing (hs : root.sub? name = none) (members : Members) (v : Json) :
    atKey verb root members (name, v) = none := by
  rw [atKey, Context.last, hs]
  rfl

/-- What is done at a key acts at the name of its attribute. -/
theorem actsAt_last {c : Context} {s : Attribute} (hs : a.sub? name = some s) :
    ActsAt s.name fun members => c.last a members (.name name) :=
  c.actsAt_along hs []

theorem inOrder_atKey {field : String × Json} (hordered : members.InOrder)
    (h : atKey verb root members field = some changed) : changed.InOrder := by
  obtain ⟨name, v⟩ := field
  cases hs : root.sub? name with
  | none =>
      rw [atKey_missing hs] at h
      cases h
  | some s => exact (actsAt_last hs).inOrder hordered (ok_of_toOption h)

/-- Keys that are not alike can be used in either order. -/
theorem atKey_comm {field field' : String × Json} (hordered : members.InOrder)
    (h : Text.alike field.1 field'.1 = false) :
    (atKey verb root members field >>= (atKey verb root · field')) =
      (atKey verb root members field' >>= (atKey verb root · field)) := by
  obtain ⟨name, v⟩ := field
  obtain ⟨name', v'⟩ := field'
  cases hs : root.sub? name with
  | none => simp [atKey_missing hs]
  | some s =>
      cases hs' : root.sub? name' with
      | none => simp [atKey_missing hs']
      | some s' =>
          obtain ⟨_, hname⟩ := Attribute.mem_of_sub? hs
          obtain ⟨_, hname'⟩ := Attribute.mem_of_sub? hs'
          have hnames : Text.alike s.name s'.name = false := by
            have hleft := Text.not_alike_of_alike hname h
            rw [Text.alike_comm] at hleft ⊢
            exact Text.not_alike_of_alike hname' hleft
          have hcomm := (actsAt_last (c := ⟨verb, "", v⟩) hs).comm
            (actsAt_last (c := ⟨verb, "", v'⟩) hs') hnames hordered
          rw [toOption_bind, toOption_bind] at hcomm
          exact hcomm

/-- An operation without a path is spread out over the members of its value. -/
theorem apply_pathless (hverb : verb ≠ .remove) :
    (Operation.mk verb none (.object fields)).apply limit root members =
      spreadOut verb root members fields := by
  have hplace : (Operation.mk verb none (.object fields)).place.isEmpty = true := rfl
  rw [Operation.apply, if_pos hplace, Operation.applyPathless, if_neg hverb]

/-- An operation without a path, and a request with one operation for every member of its value,
in any order, fail both or make the same. -/
theorem Request.apply_expanded {schema : Schema} {order : Members} (hverb : verb ≠ .remove)
    (hplain : ∀ m ∈ fields, Path.IsPlain m.1)
    (hkeys : fields.Pairwise fun m n => Text.alike m.1 n.1 = false) (hordered : members.InOrder)
    (horder : order.Perm fields) :
    ((ofOperations (order.map fun m => ⟨verb, some m.1, m.2⟩)).apply limit schema
        members).toOption =
      ((ofOperations [⟨verb, none, .object fields⟩]).apply limit schema members).toOption := by
  have hsymm : ∀ {m n : String × Json}, Text.alike m.1 n.1 = false →
      Text.alike n.1 m.1 = false := fun h => by rw [Text.alike_comm, h]
  have hplain' : ∀ m ∈ order, Path.IsPlain m.1 := fun m hm => hplain m (horder.mem_iff.mp hm)
  have hkeys' := (horder.pairwise_iff hsymm).mpr hkeys
  have hpathless : ((ofOperations [⟨verb, none, .object fields⟩]).apply limit schema
      members).toOption = fields.foldlM (atKey verb schema.root) members := by
    rw [apply_one, toOption_mapError, apply_pathless hverb, toOption_spreadOut]
  have heach : ((ofOperations (order.map fun m => ⟨verb, some m.1, m.2⟩)).apply limit schema
      members).toOption = order.foldlM (atKey verb schema.root) members := by
    rw [apply_ofOperations, toOption_applyAll hplain']
  rw [hpathless, heach]
  refine foldlM_perm Members.InOrder (fun m n : String × Json => Text.alike m.1 n.1 = false) hsymm
    ?_ ?_ horder hkeys' hordered
  · intro members field changed
    exact inOrder_atKey
  · intro members field field'
    exact atKey_comm

/-- A group gets a name, whose key is spelt in another case, and a member. -/
theorem Request.apply_expanded_group :
    let fields : Members := [("DISPLAYNAME", .string "Operators"),
      ("members", .array [.object [("value", .string "u1")]])]
    let order : Members := fields.reverse
    let before : Members := [("displayName", .string "Ops")]
    let after : Members := [("displayName", .string "Operators"),
      ("members", .array [.object [("value", .string "u1")]])]
    (∀ m ∈ fields, Path.IsPlain m.1) ∧
      fields.Pairwise (fun m n => Text.alike m.1 n.1 = false) ∧ before.InOrder ∧
      order.Perm fields ∧
      (ofOperations [⟨.add, none, .object fields⟩]).apply Filter.defaultMaxLength Schema.group
        before = .ok after ∧
      ((ofOperations (order.map fun m => ⟨.add, some m.1, m.2⟩)).apply Filter.defaultMaxLength
        Schema.group before).toOption = some after := by
  intro fields order before after
  have hplain : ∀ m ∈ fields, Path.IsPlain m.1 :=
    List.forall_mem_cons.mpr ⟨by decide, List.forall_mem_singleton.mpr (by decide)⟩
  have hkeys : fields.Pairwise fun m n => Text.alike m.1 n.1 = false :=
    List.pairwise_pair.mpr (by decide)
  have hordered : before.InOrder := List.pairwise_singleton _ _
  have horder : order.Perm fields := List.reverse_perm fields
  have hafter : (ofOperations [⟨.add, none, .object fields⟩]).apply Filter.defaultMaxLength
      Schema.group before = .ok after := by
    rw [apply_one, apply_pathless (by decide)]
    dsimp only [fields, before, after]
    rfl
  refine ⟨hplain, hkeys, hordered, horder, hafter, ?_⟩
  rw [apply_expanded (by decide) hplain hkeys hordered horder, hafter]
  rfl

end Scim.Patch
