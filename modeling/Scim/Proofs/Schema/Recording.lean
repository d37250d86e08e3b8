import Scim.Proofs.Json.Footprint
import Scim.Proofs.Json.Rereading
import Scim.Proofs.Schema.Soundness
import Scim.Schema.Record

/-!
# Recording a schema

A schema is recorded by its identifier, its name, its description and its attributes, and its
definition is read again as the same schema unless more than 63 attributes stand one below the
other (`Schema.ofText_definition`).

Writing forgets where the attributes are placed, so an attribute is read as `Attribute.unplaced`
(`Attribute.ofWritten?_toJson`).  Building places them again, and neither the check nor the common
attributes notice what had been forgotten (`Schema.build_unplacedAll`).

Every level of attributes takes two containers, the object of the attribute and the array of its
sub-attributes, and no more than 127 containers may be open at once.
-/

namespace Scim

open Json (Written)

/-! ## Fields that are read of an object -/

namespace Members

variable {members : Members}

/-- In order, at most one member has a key. -/
theorem filter_beq_eq (h : members.InOrder) (key : String) :
    members.filter (·.1 == key) = (members.get? key).toList.map fun v => (key, v) := by
  induction members with
  | nil => rfl
  | cons m rest ih =>
      obtain ⟨k, v⟩ := m
      rw [get?_cons]
      by_cases hkey : key = k
      · subst hkey
        have hrest : rest.filter (·.1 == key) = [] :=
          List.filter_eq_nil_iff.mpr fun m hm => by simpa using h.ne_head hm
        rw [List.filter_cons_of_pos (by simp), hrest, if_pos rfl]
        rfl
      · rw [List.filter_cons_of_neg (by simpa using Ne.symm hkey), if_neg hkey,
          ih (List.pairwise_cons.mp h).2]

end Members

namespace Json

variable {members : Members}

theorem readMembers_eq_map (depth : Nat) (members : Members) :
    readMembers depth members = members.map fun m => (m.1, readAt depth m.2) := by
  induction members with
  | nil => rfl
  | cons m rest ih => rw [readMembers, ih, List.map_cons]

/-- The field of a name is what is read of the member with that key. -/
theorem field?_readMembers (h : members.InOrder) (depth : Nat) (name : String) :
    Written.field? (readMembers depth members) name =
      some ((members.get? name).map (readAt depth)) := by
  have hfilter : (readMembers depth members).filter (·.1 == name) =
      ((members.get? name).toList.map fun v => (name, readAt depth v)) := by
    rw [readMembers_eq_map, List.filter_map]
    show (members.filter (·.1 == name)).map _ = _
    rw [Members.filter_beq_eq h, List.map_map]
    rfl
  rw [Written.field?, hfilter]
  cases members.get? name <;> rfl

/-- The fields of a record are what is read of the members with their names. -/
theorem fields?_readMembers (h : members.InOrder) (depth : Nat) (names : List String) :
    Written.fields? names (.object (readMembers depth members)) =
      some ((names.map members.get?).map (Option.map (readAt depth))) := by
  have hfield : Written.field? (readMembers depth members) =
      fun name => some ((members.get? name).map (readAt depth)) :=
    funext (field?_readMembers h depth)
  rw [Written.fields?, hfield, List.map_map]
  exact List.mapM_pure

theorem Numberless.ofPairs {pairs : List (String × Json)} (h : ∀ p ∈ pairs, p.2.Numberless) :
    (Json.object (Members.ofPairs pairs)).Numberless :=
  .object fun m hm => h m (Members.mem_ofPairs hm)

end Json

/-! ## Attributes -/

namespace Attribute

mutual

/-- How many attributes stand one below the other, from an attribute on. -/
def levels : Attribute → Nat
  | ⟨_, subs⟩ => levelsAmong subs + 1
termination_by structural a => a

/-- How many attributes stand one below the other among attributes. -/
def levelsAmong : List Attribute → Nat
  | [] => 0
  | a :: rest => max (levels a) (levelsAmong rest)
termination_by structural as => as

end

mutual

/-- An attribute without its place in a schema. -/
def unplaced : Attribute → Attribute
  | ⟨traits, subs⟩ => ⟨{ traits with placement := none }, unplacedAll subs⟩
termination_by structural a => a

/-- Attributes without their places in a schema. -/
def unplacedAll : List Attribute → List Attribute
  | [] => []
  | a :: rest => unplaced a :: unplacedAll rest
termination_by structural as => as

end

theorem unplacedAll_eq_map (as : List Attribute) : unplacedAll as = as.map unplaced := by
  induction as with
  | nil => rfl
  | cons a rest ih => rw [unplacedAll, ih, List.map_cons]

/-! ## Reading what was written -/

theorem lookup_partsOfMembers (depth : Nat) (members : Members) (name : String) :
    (partsOfMembers (Json.readMembers depth members)).lookup name =
      (members.get? name).map fun v => listOfWritten? (Json.readAt depth v) := by
  induction members with
  | nil => rfl
  | cons m rest ih =>
      obtain ⟨k, v⟩ := m
      rw [Json.readMembers, partsOfMembers, List.lookup_cons, Members.get?_cons, ih]
      by_cases hkey : name = k
      · rw [beq_iff_eq.mpr hkey, if_pos hkey]
        rfl
      · rw [beq_eq_false_iff_ne.mpr hkey, if_neg hkey]

theorem lookup_typeNames (type : ValueType) : typeNames.lookup type.word = some type := by
  cases type <;> decide

theorem lookup_mutabilityNames (mutability : Mutability) :
    mutabilityNames.lookup mutability.word = some mutability := by
  cases mutability <;> decide

/-- The members of an attribute as it is written. -/
def membersOf (a : Attribute) : Members := a.toJson.object?.getD []

theorem toJson_eq (a : Attribute) : a.toJson = .object a.membersOf := by
  obtain ⟨traits, subs⟩ := a
  rfl

theorem inOrder_membersOf (a : Attribute) : a.membersOf.InOrder := by
  obtain ⟨traits, subs⟩ := a
  exact Members.inOrder_ofPairs _

/-- What stands at the fields of an attribute that is written. -/
theorem get?_membersOf (a : Attribute) :
    fieldNames.map a.membersOf.get? =
      [some (.string a.name), some (.string a.type.word), some (.bool a.multiValued),
        a.description.map .string, some (.bool a.required), some (.bool a.caseExact),
        some (.string a.mutability.word),
        if a.subAttributes.isEmpty then none else some (.array (listToJson a.subAttributes)),
        a.arrayIndexKey.map .string] := by
  obtain ⟨⟨_, _, _, description, _, _, _, key, _⟩, subs⟩ := a
  cases description <;> cases key <;> cases subs <;>
    simp [fieldNames, membersOf, toJson, Json.object?, Members.get?_ofPairs, Members.get?_cons]

/-- The fields of an attribute make the attribute, except for its place and its sub-attributes. -/
theorem ofFields?_membersOf (depth : Nat) (a : Attribute) (subs : Option (List Attribute)) :
    ofFields? subs ((fieldNames.map a.membersOf.get?).map (Option.map (Json.readAt depth))) =
      (if a.subAttributes.isEmpty then some [] else subs).map fun subs =>
        ⟨{ a.toTraits with placement := none }, subs⟩ := by
  rw [get?_membersOf]
  obtain ⟨⟨_, _, _, description, _, _, _, key, _⟩, list⟩ := a
  cases description <;> cases key <;> cases list <;> cases subs <;>
    simp [ofFields?, Json.readAt, Written.required?, Written.optional?, Written.nullable?,
      Written.string?, Written.bool?, Written.choice?, lookup_typeNames, lookup_mutabilityNames]

theorem get?_subAttributes (a : Attribute) :
    a.membersOf.get? "subAttributes" =
      if a.subAttributes.isEmpty then none else some (.array (listToJson a.subAttributes)) :=
  Option.some.inj (congrArg (fun fields => fields[7]?) (get?_membersOf a))

/-- An object that was written for an attribute is read by its fields. -/
theorem ofWritten?_membersOf (depth : Nat) (a : Attribute) :
    ofWritten? (.object (Json.readMembers depth a.membersOf)) =
      (if a.subAttributes.isEmpty then some []
        else listOfWritten? (Json.readAt depth (.array (listToJson a.subAttributes)))).map
        fun subs => ⟨{ a.toTraits with placement := none }, subs⟩ := by
  rw [ofWritten?, Json.fields?_readMembers (inOrder_membersOf a), Option.bind_eq_bind,
    Option.bind_some, ofFields?_membersOf, lookup_partsOfMembers, get?_subAttributes]
  cases a.subAttributes.isEmpty <;> rfl

theorem levelsAmong_pos {as : List Attribute} (h : as ≠ []) : 0 < levelsAmong as := by
  cases as with
  | nil => exact absurd rfl h
  | cons a rest =>
      obtain ⟨traits, subs⟩ := a
      rw [levelsAmong, levels]
      omega

mutual

/-- An attribute that was written is read without its place, unless it is nested too deep. -/
theorem ofWritten?_toJson : ∀ (a : Attribute) (depth : Nat),
    ofWritten? (Json.readAt depth a.toJson) =
      if depth + 2 * a.levels ≤ Json.Reader.maxDepth + 1 then some a.unplaced else none
  | ⟨traits, subs⟩, depth => by
      rw [toJson_eq, levels]
      by_cases hobject : depth < Json.Reader.maxDepth
      case neg =>
          rw [Json.readAt_object_of_not hobject, if_neg (by omega)]
          rfl
      rw [Json.readAt_object hobject, ofWritten?_membersOf]
      cases hsubs : subs with
      | nil =>
          have hlevels : depth + 2 * (0 + 1) ≤ Json.Reader.maxDepth + 1 := by omega
          exact (if_pos hlevels).symm
      | cons a rest =>
          rw [← hsubs, if_neg (by simp [hsubs])]
          -- The array may be too deep although the object is not.
          by_cases harray : depth + 1 < Json.Reader.maxDepth
          case neg =>
              have hlevels : 0 < levelsAmong subs := levelsAmong_pos (by simp [hsubs])
              rw [Json.readAt_array_of_not harray, if_neg (by omega)]
              rfl
          have hitems := listOfItems?_listToJson subs (depth + 1 + 1) (by omega)
          rw [Json.readAt_array harray, listOfWritten?, hitems]
          split_ifs
          · rfl
          · omega
          · omega
          · rfl
termination_by structural a => a

/-- Attributes that were written are read without their places, unless they are nested too deep. -/
theorem listOfItems?_listToJson : ∀ (as : List Attribute) (depth : Nat),
    depth ≤ Json.Reader.maxDepth + 1 →
    listOfItems? (Json.readItems depth (listToJson as)) =
      if depth + 2 * levelsAmong as ≤ Json.Reader.maxDepth + 1 then some (unplacedAll as) else none
  | [], depth, hdepth => by
      rw [levelsAmong, if_pos (by omega)]
      rfl
  | a :: rest, depth, hdepth => by
      have ha := ofWritten?_toJson a depth
      have hrest := listOfItems?_listToJson rest depth hdepth
      rw [listToJson, Json.readItems, listOfItems?, ha, hrest, levelsAmong]
      split_ifs <;> first | rfl | omega
termination_by structural as => as

end

mutual

/-- An attribute is written without numbers. -/
theorem numberless_toJson : ∀ a : Attribute, a.toJson.Numberless
  | ⟨⟨_, _, _, description, _, _, _, key, _⟩, subs⟩ => by
      have hsubs : (Json.array (listToJson subs)).Numberless := .array (numberless_listToJson subs)
      refine .ofPairs ?_
      cases description <;> cases key <;> cases subs <;>
        simp [Json.Numberless.string, Json.Numberless.bool, hsubs]
termination_by structural a => a

/-- Attributes are written without numbers. -/
theorem numberless_listToJson : ∀ as : List Attribute, ∀ v ∈ listToJson as, v.Numberless
  | [] => fun _ hv => absurd hv List.not_mem_nil
  | a :: rest => List.forall_mem_cons.mpr ⟨numberless_toJson a, numberless_listToJson rest⟩
termination_by structural as => as

end

/-! ## Forgetting places -/

theorem toTraits_unplaced (a : Attribute) :
    a.unplaced.toTraits = { a.toTraits with placement := none } := by
  obtain ⟨traits, subs⟩ := a
  rfl

theorem subAttributes_unplaced (a : Attribute) :
    a.unplaced.subAttributes = unplacedAll a.subAttributes := by
  obtain ⟨traits, subs⟩ := a
  rfl

theorem name_unplaced (a : Attribute) : a.unplaced.name = a.name := by
  rw [toTraits_unplaced]

/-- A sub-attribute is found by its name wherever it is placed. -/
theorem find?_unplacedAll (p : String → Bool) (as : List Attribute) :
    ((unplacedAll as).find? fun s => p s.name).map (·.name) =
      (as.find? fun s => p s.name).map (·.name) := by
  simp [unplacedAll_eq_map, List.find?_map, Function.comp_def, name_unplaced]

theorem chooseKey_unplacedAll (traits : Traits) (subs : List Attribute) :
    chooseKey { traits with placement := none } (unplacedAll subs) = chooseKey traits subs := by
  rw [chooseKey, find?_unplacedAll (Text.alike · "value"), find?_unplacedAll (Text.alike · "type")]
  rfl

mutual

/-- An attribute is placed where it belongs wherever it was placed before. -/
theorem place_unplaced (schemaId : String) : ∀ (parent : String) (a : Attribute),
    place schemaId parent a.unplaced = place schemaId parent a
  | parent, ⟨traits, subs⟩ => by
      rw [unplaced, place, place, chooseKey_unplacedAll, placeAll_unplacedAll]
termination_by structural _ a => a

/-- Attributes are placed where they belong wherever they were placed before. -/
theorem placeAll_unplacedAll (schemaId : String) : ∀ (parent : String) (as : List Attribute),
    placeAll schemaId parent (unplacedAll as) = placeAll schemaId parent as
  | _, [] => rfl
  | parent, a :: rest => by
      rw [unplacedAll, placeAll, placeAll, place_unplaced schemaId parent a,
        placeAll_unplacedAll schemaId parent rest]
termination_by structural _ as => as

end

mutual

/-- Placing an attribute changes nothing but its place. -/
theorem unplaced_place (schemaId : String) : ∀ (parent : String) (a : Attribute),
    (place schemaId parent a).unplaced = a.unplaced
  | parent, ⟨traits, subs⟩ => by
      rw [place, unplaced, unplaced, unplacedAll_placeAll]
termination_by structural _ a => a

/-- Placing attributes changes nothing but their places. -/
theorem unplacedAll_placeAll (schemaId : String) : ∀ (parent : String) (as : List Attribute),
    unplacedAll (placeAll schemaId parent as) = unplacedAll as
  | _, [] => rfl
  | parent, a :: rest => by
      rw [placeAll, unplacedAll, unplacedAll, unplaced_place schemaId parent a,
        unplacedAll_placeAll schemaId parent rest]
termination_by structural _ as => as

end

end Attribute

namespace Schema

open Attribute

variable {id name : String} {description : Option String} {attributes added : List Attribute}
  {schema : Schema}

/-! ## Building from what was read -/

/-- The check of one attribute does not look at places. -/
theorem fault?_unplaced (earlier : List Attribute) (a : Attribute) :
    fault? (unplacedAll earlier) a.unplaced = fault? earlier a := by
  have hearlier : ((unplacedAll earlier).any fun e => Text.alike e.name a.name) =
      earlier.any fun e => Text.alike e.name a.name := by
    simp [unplacedAll_eq_map, List.any_map, Function.comp_def, name_unplaced]
  have hsubs : (unplacedAll a.subAttributes).isEmpty = a.subAttributes.isEmpty := by
    simp [unplacedAll_eq_map]
  have hcomplex : a.unplaced.isComplex = a.isComplex := by
    rw [isComplex, toTraits_unplaced, isComplex]
  simp only [fault?, hcomplex, toTraits_unplaced, subAttributes_unplaced, hearlier, hsubs]

mutual

/-- The check below an attribute does not look at places. -/
theorem faultBelow?_unplaced : ∀ a : Attribute, faultBelow? a.unplaced = faultBelow? a
  | ⟨traits, subs⟩ => by
      rw [unplaced, faultBelow?, faultBelow?, ← faultAmong?_unplacedAll [] subs, unplacedAll]
termination_by structural a => a

/-- The check of siblings does not look at places. -/
theorem faultAmong?_unplacedAll : ∀ earlier as : List Attribute,
    faultAmong? (unplacedAll earlier) (unplacedAll as) = faultAmong? earlier as
  | _, [] => rfl
  | earlier, a :: rest => by
      have hearlier : unplacedAll earlier ++ [a.unplaced] = unplacedAll (earlier ++ [a]) := by
        simp [unplacedAll_eq_map]
      rw [unplacedAll, faultAmong?, faultAmong?, fault?_unplaced, faultBelow?_unplaced a, hearlier,
        faultAmong?_unplacedAll (earlier ++ [a]) rest]
termination_by structural _ as => as

end

theorem any_withCommon {c : Attribute} (hc : c ∈ added) :
    ((withCommon attributes added).any fun a => Text.alike a.name c.name) = true := by
  rw [withCommon, List.any_append, Bool.or_eq_true]
  by_cases h : (attributes.any fun a => Text.alike a.name c.name) = true
  · exact .inl h
  · have hmem : c ∈ added.filter fun c => !attributes.any fun a => Text.alike a.name c.name :=
      List.mem_filter.mpr ⟨hc, by simpa using h⟩
    exact .inr (List.any_eq_true.mpr ⟨c, hmem, Text.alike_refl c.name⟩)

/-- No attribute is added whose name is there. -/
theorem withCommon_eq_self
    (h : ∀ c ∈ added, (attributes.any fun a => Text.alike a.name c.name) = true) :
    withCommon attributes added = attributes := by
  have hnone : (added.filter fun c => !attributes.any fun a => Text.alike a.name c.name) = [] :=
    List.filter_eq_nil_iff.mpr fun c hc => by simp [h c hc]
  rw [withCommon, hnone, List.append_nil]

/-- The common attributes are not added a second time. -/
theorem withCommon_unplacedAll (attributes added : List Attribute) :
    withCommon (unplacedAll (withCommon attributes added)) added =
      unplacedAll (withCommon attributes added) := by
  refine withCommon_eq_self fun c hc => ?_
  have hthere : ((withCommon attributes added).any fun a => Text.alike a.name c.name) = true :=
    any_withCommon hc
  rw [unplacedAll_eq_map, List.any_map]
  simpa [Function.comp_def, name_unplaced] using hthere

/-- The attributes of a schema, without their places, make the schema again. -/
theorem build_unplacedAll (h : build id name description attributes = .ok schema) :
    build id name description (unplacedAll schema.attributes) = .ok schema := by
  have hid : (Text.trim id.toList).isEmpty = false := by
    by_contra hblank
    rw [build, if_pos (by simpa using hblank)] at h
    cases h
  obtain ⟨hfault, rfl⟩ := of_build h
  have hread : unplacedAll (placeAll id "" (withCommon attributes commonAttributes)) =
      unplacedAll (withCommon attributes commonAttributes) := unplacedAll_placeAll ..
  have hfault' : faultAmong? [] (unplacedAll (withCommon attributes commonAttributes)) = none :=
    (faultAmong?_unplacedAll [] _).trans hfault
  show build id name description (unplacedAll (placeAll id "" _)) = _
  rw [hread, build_eq hid (by rw [withCommon_unplacedAll, hfault']), withCommon_unplacedAll,
    assemble, assemble, rootOf, rootOf, placeAll_unplacedAll]

/-! ## Definitions -/

/-- The definition of a schema. -/
def definition (schema : Schema) : Json :=
  .object <| Members.ofPairs
    [("id", .string schema.id), ("name", .string schema.name),
      ("description", (schema.description.map Json.string).getD .null),
      ("attributes", .array (listToJson schema.attributes))]

theorem numberless_definition (schema : Schema) : schema.definition.Numberless := by
  have hattributes : (Json.array (listToJson schema.attributes)).Numberless :=
    .array (numberless_listToJson schema.attributes)
  refine .ofPairs ?_
  cases schema.description <;>
    simp [Json.Numberless.null, Json.Numberless.string, hattributes]

/-- What is read of a definition. -/
theorem fields?_definition (schema : Schema) :
    Written.fields? ["id", "name", "description", "attributes"] (Json.readAt 0 schema.definition) =
      some [some (.string schema.id), some (.string schema.name),
        some ((schema.description.map Written.string).getD .null),
        some (.array (Json.readItems 2 (listToJson schema.attributes)))] := by
  rw [definition, Json.readAt_object (by decide),
    Json.fields?_readMembers (Members.inOrder_ofPairs _)]
  cases schema.description <;>
    simp [Members.get?_ofPairs, Members.get?_cons, Json.readAt, Json.Reader.maxDepth]

/-- A definition of a schema that was built is decoded and built again, unless it is nested too
deep. -/
theorem ofWritten_definition (h : build id name description attributes = .ok schema) :
    ofWritten (Json.readAt 0 schema.definition) =
      if levelsAmong schema.attributes ≤ 63 then .ok schema else .error .malformed := by
  obtain ⟨hid, hname, hdescription⟩ :
      schema.id = id ∧ schema.name = name ∧ schema.description = description := by
    obtain ⟨_, rfl⟩ := of_build h
    exact ⟨rfl, rfl, rfl⟩
  have hattributes : listOfWritten? (.array (Json.readItems 2 (listToJson schema.attributes))) =
      if levelsAmong schema.attributes ≤ 63 then some (unplacedAll schema.attributes)
      else none := by
    rw [listOfWritten?, listOfItems?_listToJson _ _ (by decide), Json.Reader.maxDepth]
    split_ifs <;> first | rfl | omega
  have hread : Written.nullable? Written.string?
      (some ((description.map Written.string).getD .null)) = some description := by
    cases description <;> rfl
  rw [ofWritten, fields?_definition, hid, hname, hdescription]
  simp only [Option.bind_eq_bind, Option.bind_some, Written.required?, Written.string?, hread,
    hattributes]
  split_ifs
  · exact build_unplacedAll h
  · rfl

theorem ofText_compact {v : Json} (h : v.Numberless) :
    ofText (Json.compact v) = ofWritten (Json.readAt 0 v) := by
  rw [ofText, Written.ofText?_compact h]

/-- A schema that was built is read again from its definition, unless more than 63 of its
attributes stand one below the other. -/
theorem ofText_definition (h : build id name description attributes = .ok schema) :
    ofText (Json.compact schema.definition) =
      if levelsAmong schema.attributes ≤ 63 then .ok schema else .error .malformed := by
  rw [ofText_compact (numberless_definition schema), ofWritten_definition h]

/-- The schema of groups is read again from its definition. -/
theorem ofText_definition_group :
    build groupId "Group" (some "Group") groupAttributes = .ok group ∧
      ofText (Json.compact group.definition) = .ok group :=
  ⟨build_group, (ofText_definition build_group).trans (if_pos (by decide +kernel))⟩

/-- Attributes that stand one below the other, a simple one below the complex ones. -/
def tower : Nat → Attribute
  | 0 => { name := "a" }
  | n + 1 => { name := "a", type := .complex, subAttributes := [tower n] }

/-- The schema of a tower of 64 attributes can be built, and its definition is refused. -/
theorem ofText_definition_tower :
    ∃ schema, build "urn:tower" "Tower" none [tower 63] = .ok schema ∧
      ofText (Json.compact schema.definition) = .error .malformed := by
  have hbuild : build "urn:tower" "Tower" none [tower 63] =
      .ok (assemble "urn:tower" "Tower" none (withCommon [tower 63] commonAttributes)) :=
    build_eq (by decide +kernel) (by decide +kernel)
  refine ⟨_, hbuild, ?_⟩
  rw [ofText_compact (numberless_definition _), ofWritten_definition hbuild]
  exact if_neg (by decide +kernel)

end Schema

end Scim
