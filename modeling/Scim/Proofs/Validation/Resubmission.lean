import Scim.Proofs.Validation.SimpleElements
import Scim.Validation.Required
import Scim.Validation.Types

/-!
# Sending a resource back as it is stored

When a client sends back the stored version of a resource, the enforcement of mutability walks the
resource beside itself.  Only elements of arrays can meet other values then than themselves.  So
the resource passes and loses nothing but members that are `null` exactly if its elements do, each
beside the elements that it is compared with.

An element comes back if it is consistent with the others, and where nothing is below the
sub-attributes, all elements come back only if all of them are consistent.
-/

namespace Scim.Validation

/-- A resource passes the enforcement beside itself, and loses nothing but members that are `null`,
exactly if its elements come back.  An element comes back if it is consistent with the others of
its array, and simple elements come back only if they are. -/
theorem enforceMutability_itself {schema : Schema} (hschema : schema.Accepted) (r : Resource) :
    ((∃ kept, enforceMutability schema (some r) r = ⟨⟨kept⟩, .ok ()⟩ ∧
        Sheds schema.root r.toJson (.object kept)) ↔
      ∀ b items e, IsElement schema.root r.toJson b items e → ComesBack b items e) ∧
    (∀ b items e, IsElement schema.root r.toJson b items e → Consistent b items e →
      ComesBack b items e) ∧
    ∀ b items, Within schema.root r.toJson b (.array items) → AreSimple b items →
      (∀ e ∈ items, ComesBack b items e) → ∀ e ∈ items, Consistent b items e := by
  have hroot := opens_root hschema
  refine ⟨⟨?_, fun h => ?_⟩, fun b items e he h => ?_, fun b items hwithin hsimple h => ?_⟩
  · rintro ⟨kept, henforce, hsheds⟩ b items e he
    exact comesBack_of_walkAll hschema.sound he (walkAll_of_enforceMutability henforce) hsheds
  · obtain ⟨kept, hkept, hsheds⟩ := passes_itself.walkAll [] (some r.members) r.members
      schema.attributes schema.root hroot hschema.sound.distinct
      (fun s hs => ⟨hschema.sound.sub hs, hs⟩)
      (fun s hs => ⟨rfl, fun b items e he => h b items e (he.member hroot hs)⟩)
    exact ⟨kept, enforceMutability_of_walkAll hkept, hsheds⟩
  · exact comesBack_of_consistent (he.within.sound hschema.sound) h
  · exact consistent_of_comesBack (hwithin.sound hschema.sound) hsimple h

/-- A group is sent back that has two members twice, and their types are empty, missing or
`null`. -/
theorem enforceMutability_itself_group :
    let ann : Members := [("type", .string ""), ("value", .string "u1")]
    let untyped : Members := [("value", .string "u1")]
    let bob : Members := [("type", .null), ("value", .string "u2")]
    let items : List Json := [.object ann, .object untyped, .object bob, .object bob]
    let r : Resource := ⟨[("displayName", .string "A"), ("members", .array items)]⟩
    Schema.group.Accepted ∧
      (∀ b found e, IsElement Schema.group.root r.toJson b found e → Consistent b found e) ∧
      (∃ b, Within Schema.group.root r.toJson b (.array items) ∧ AreSimple b items) ∧
      ∃ kept, enforceMutability Schema.group (some r) r = ⟨⟨kept⟩, .ok ()⟩ ∧
        Sheds Schema.group.root r.toJson (.object kept) := by
  intro ann untyped bob items r
  have hgroup : Schema.group.Accepted := .built Schema.build_group
  obtain ⟨crew, hcrew, hvalue, hfree, hcomplex, hsubs, hmet⟩ : ∃ s,
      Schema.group.root.sub? "members" = some s ∧ r.members.valueOf s.name = .array items ∧
      s.mutability = .readWrite ∧ s.isComplex = true ∧
      (∀ t ∈ s.subAttributes, t.isComplex = false ∧ t.multiValued = false) ∧
      ∀ e ∈ [ann, untyped, bob], partners s (some (.array items)) (.object e) ≠ [] ∧
        ∀ p ∈ partners s (some (.array items)) (.object e), ∀ t ∈ s.subAttributes,
          Fits t (Members.named? (p.object?.getD []) t.name) (e.valueOf t.name) := by
    refine ⟨_, rfl, rfl, rfl, rfl, ?_, ?_⟩
    · decide +kernel
    · dsimp only [items, ann, untyped, bob]
      decide +kernel
  have hkeys : ∀ e ∈ [ann, untyped, bob], Members.InOrder e ∧ Members.DistinctKeys e := by
    dsimp only [ann, untyped, bob]
    decide +kernel
  have hone : ∀ e ∈ [ann, untyped, bob], Consistent crew items (.object e) := by
    intro e he
    obtain ⟨hordered, hdistinct⟩ := hkeys e he
    obtain ⟨hpaired, hfits⟩ := hmet e he
    exact consistent_of_simple hfree hsubs hordered hdistinct hpaired fun others hp =>
      hfits (.object others) hp
  have hconsistent : ∀ e ∈ items, Consistent crew items e := by
    simpa [items] using hone
  obtain ⟨hmem, hname⟩ := Attribute.mem_of_sub? hcrew
  have hwithin : Within Schema.group.root r.toJson crew (.array items) :=
    .member (opens_root hgroup) hmem (hvalue ▸ .here)
  have hsimple : AreSimple crew items := by
    refine ⟨hfree, hcomplex, hsubs, fun members hmembers => hkeys members ?_⟩
    simpa [items] using hmembers
  have helements : ∀ b found e, IsElement Schema.group.root r.toJson b found e →
      Consistent b found e := by
    intro b found e he
    obtain ⟨s, hs, m, hm, halike, he⟩ := he.exists_member
    rcases List.mem_cons.mp hm with rfl | hm
    · cases he.within
    · cases List.mem_singleton.mp hm
      obtain ⟨rfl, rfl⟩ := he.of_array
      cases hgroup.sound.eq_of_alike hmem hs (Text.alike_trans hname halike)
      exact hconsistent e he.mem
  obtain ⟨hiff, hcomes, _⟩ := enforceMutability_itself hgroup r
  refine ⟨hgroup, helements, ⟨crew, hwithin, hsimple⟩, hiff.mpr fun b found e he => ?_⟩
  exact hcomes b found e he (helements b found e he)

/-- Nothing that makes an element consistent can be left out.  A badge without a value loses its
serial number.  Of two badges with one value, both get the serial number of the second, crests that
differ are refused, and so are equal crests with a `null`, which is gone when a crest is compared
again.  A color that the second badge loses beside the first one comes back beside itself, but
under another key. -/
theorem enforceMutability_itself_fails :
    let attributes : List Attribute :=
      [{ name := "badges", type := .complex, multiValued := true,
          subAttributes := [{ name := "value" }, { name := "serial", mutability := .readOnly },
            { name := "info", type := .complex,
              subAttributes := [{ name := "color", mutability := .readOnly }] },
            { name := "crest", type := .complex, mutability := .immutable,
              subAttributes := [{ name := "motto" }, { name := "note" }] }] }]
    let badges (items : List Members) : Resource :=
      ⟨[("badges", .array (items.map .object)), ("schemas", .array [.string "urn:badges"])]⟩
    let numbered (serial : String) : Members :=
      [("serial", .string serial), ("value", .string "k")]
    let colored (key : String) : Members :=
      [("info", .object [(key, .string "red")]), ("value", .string "k")]
    let crested (crest : Members) : Members := [("crest", .object crest), ("value", .string "k")]
    let lone := badges [[("serial", .string "1")]]
    let unlike := badges [numbered "1", numbered "2"]
    let respelt := badges [[("value", .string "k")], colored "COLOR"]
    let differing := badges
      [crested [("motto", .string "A")], crested [("motto", .string "B")]]
    let noted := crested [("motto", .string "A"), ("note", .null)]
    ∃ schema, Schema.build "urn:badges" "Badge" none attributes = .ok schema ∧
      (∀ r ∈ [lone, unlike, respelt, differing, badges [noted, noted]],
        checkTypes schema r = .ok () ∧ checkRequired schema r = .ok ()) ∧
      enforceMutability schema (some lone) lone = ⟨badges [[]], .ok ()⟩ ∧
      enforceMutability schema (some unlike) unlike =
        ⟨badges [numbered "2", numbered "2"], .ok ()⟩ ∧
      enforceMutability schema (some respelt) respelt =
        ⟨badges [[("value", .string "k")], colored "color"], .ok ()⟩ ∧
      ∀ r ∈ [differing, badges [noted, noted]],
        (enforceMutability schema (some r) r).result = .error (.immutable "badges.crest") := by
  intro attributes badges numbered colored crested lone unlike respelt differing noted
  have hbuild : Schema.build "urn:badges" "Badge" none attributes = .ok
      (Schema.assemble "urn:badges" "Badge" none
        (Schema.withCommon attributes Schema.commonAttributes)) :=
    Schema.build_eq (by decide +kernel) (by
      dsimp only [attributes]
      decide +kernel)
  refine ⟨_, hbuild, ?_, ?_, ?_, ?_, ?_⟩ <;>
    dsimp only [attributes, badges, numbered, colored, crested, lone, unlike, respelt, differing,
      noted] <;>
    decide +kernel

end Scim.Validation
