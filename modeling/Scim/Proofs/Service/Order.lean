import Scim.CommandLine.Performance
import Scim.Proofs.Patch.Typing
import Scim.Proofs.Validation.Ownership

/-!
# Objects stay in order

Every object has its keys in strictly increasing order, at any depth, so it has no key twice and
two objects with the same members are the same.  Nothing that the program reads or makes is out of
order.

* What is read from a text is in order (`Json.ordered_of_ofText?`), among it resources
  (`CommandLine.ordered_of_resource?`) and the values of change requests
  (`CommandLine.inOrder_of_patchRequest?`).
* A change request keeps a resource in order (`Patch.Request.ordered_apply`).
* The enforcement of mutability keeps a resource in order, whether it ends well or not
  (`Validation.ordered_enforceMutability`).

So are all resources with which a service answers (`Service.ordered_patch`,
`Service.ordered_validate`).
-/

namespace Scim

/-! ## Reading -/

namespace Json.Written

mutual

/-- The value of what is written is in order, in whatever order it is written. -/
theorem ordered_json? : ∀ (w : Written) {v : Json}, w.json? = some v → v.Ordered
  | .null, _, h => by cases h; exact .null
  | .bool b, _, h => by cases h; exact .bool b
  | .number n, _, h => by cases h; exact .number n
  | .string s, _, h => by cases h; exact .string s
  | .array items, _, h => by
      obtain ⟨vs, hvs, rfl⟩ := Option.map_eq_some_iff.mp h
      exact .array (ordered_jsonItems? items hvs)
  | .object members, _, h => by
      obtain ⟨pairs, hpairs, rfl⟩ := Option.map_eq_some_iff.mp h
      exact Members.ordered_ofPairs (ordered_jsonPairs? members hpairs)
  | .unreadable, _, h => by cases h
termination_by structural w => w

theorem ordered_jsonItems? : ∀ (items : List Written) {vs : List Json},
    jsonItems? items = some vs → ∀ v ∈ vs, v.Ordered
  | [], _, h => by
      cases h
      exact nofun
  | w :: rest, _, h => by
      obtain ⟨v, hv, h⟩ := Option.bind_eq_some_iff.mp h
      obtain ⟨vs, hvs, h⟩ := Option.bind_eq_some_iff.mp h
      cases h
      exact List.forall_mem_cons.mpr ⟨ordered_json? w hv, ordered_jsonItems? rest hvs⟩
termination_by structural items => items

theorem ordered_jsonPairs? : ∀ (members : List (String × Written)) {pairs : List (String × Json)},
    jsonPairs? members = some pairs → ∀ p ∈ pairs, p.2.Ordered
  | [], _, h => by
      cases h
      exact nofun
  | (_, w) :: rest, _, h => by
      obtain ⟨v, hv, h⟩ := Option.bind_eq_some_iff.mp h
      obtain ⟨pairs, hpairs, h⟩ := Option.bind_eq_some_iff.mp h
      cases h
      exact List.forall_mem_cons.mpr ⟨ordered_json? w hv, ordered_jsonPairs? rest hpairs⟩
termination_by structural members => members

end

end Json.Written

/-- What is read from a text is in order. -/
theorem Json.ordered_of_ofText? {text : String} {v : Json} (h : ofText? text = some v) :
    v.Ordered := by
  obtain ⟨w, _, hv⟩ := Option.bind_eq_some_iff.mp h
  exact w.ordered_json? hv

/-! ## Changes -/

namespace Patch

variable {a s : Attribute} {members changed fields : Members} {items found : List Json}
  {v w : Json} {c : Context} {step : Path.Step} {rest : List Path.Step}

/-- The values of a request are in order. -/
def Request.InOrder (request : Request) : Prop := ∀ o ∈ request.operations, o.value.Ordered

theorem Operation.ordered_of_ofWritten? {w : Json.Written} {o : Operation}
    (h : Operation.ofWritten? w = some o) : o.value.Ordered := by
  unfold Operation.ofWritten? at h
  obtain ⟨found, _, h⟩ := Option.bind_eq_some_iff.mp h
  split at h
  case h_1 verb path value _ =>
      obtain ⟨_, _, h⟩ := Option.bind_eq_some_iff.mp h
      obtain ⟨_, _, h⟩ := Option.bind_eq_some_iff.mp h
      obtain ⟨v, hv, h⟩ := Option.bind_eq_some_iff.mp h
      cases h
      exact (value.getD .null).ordered_json? hv
  case h_2 => cases h

theorem Request.inOrder_of_ofWritten? {w : Json.Written} {request : Request}
    (h : Request.ofWritten? w = some request) : request.InOrder := by
  unfold Request.ofWritten? at h
  obtain ⟨found, _, h⟩ := Option.bind_eq_some_iff.mp h
  split at h
  case h_1 schemas operations _ =>
      obtain ⟨_, _, h⟩ := Option.bind_eq_some_iff.mp h
      obtain ⟨os, hos, h⟩ := Option.bind_eq_some_iff.mp h
      cases h
      cases operations with
      | none => cases hos
      | some w =>
          cases w with
          | array items =>
              intro o ho
              obtain ⟨_, _, hread⟩ := exists_of_mapM_some hos o ho
              exact Operation.ordered_of_ofWritten? hread
          | _ => cases hos
  case h_2 => cases h

/-- What an addition brings is in order. -/
theorem ordered_incoming (h : v.Ordered) : ∀ w ∈ incoming v, w.Ordered := by
  intro w hw
  cases h with
  | array values => exact values w hw
  | null => cases hw
  | _ =>
      rw [List.mem_singleton.mp hw]
      constructor <;> assumption

theorem ordered_appendAllNew {added : List Json} (hitems : ∀ v ∈ items, v.Ordered)
    (hadded : ∀ v ∈ added, v.Ordered) : (Json.array (appendAllNew items added)).Ordered :=
  .array fun v hv => (mem_appendAllNew hv).elim (hitems v) (hadded v)

theorem ordered_merge {path : String} (h : (Json.object members).Ordered)
    (hfields : ∀ m ∈ fields, m.2.Ordered) (hmerge : merge path a members fields = .ok changed) :
    (Json.object changed).Ordered := by
  induction fields generalizing members with
  | nil =>
      cases hmerge
      exact h
  | cons m rest ih =>
      obtain ⟨name, v⟩ := m
      obtain ⟨hv, hrest⟩ := List.forall_mem_cons.mp hfields
      rw [merge] at hmerge
      split at hmerge
      case h_1 s _ => exact ih (Members.ordered_put h _ hv) hrest hmerge
      case h_2 => cases hmerge

/-- An object without members is in order. -/
theorem ordered_nil : (Json.object []).Ordered :=
  .object .nil fun _ hm => absurd hm List.not_mem_nil

/-- The array and the object in a slot are in order, or empty if there are none. -/
theorem ordered_slot (h : (Json.object members).Ordered) (name : String) :
    (∀ v ∈ ((members.get? (members.slot name)).bind Json.array?).getD [], v.Ordered) ∧
      (Json.object (((members.get? (members.slot name)).bind Json.object?).getD [])).Ordered := by
  have hvalue := Json.ordered_valueOf h name
  have hempty : ∀ v ∈ ([] : List Json), v.Ordered := fun _ hv => absurd hv List.not_mem_nil
  rw [Members.valueOf, ← Members.get?_slot] at hvalue
  cases hfound : members.get? (members.slot name) with
  | none => exact ⟨hempty, ordered_nil⟩
  | some v =>
      rw [hfound] at hvalue
      cases v with
      | array items => exact ⟨fun v hv => Json.ordered_item hvalue hv, ordered_nil⟩
      | object inner => exact ⟨hempty, hvalue⟩
      | _ => exact ⟨hempty, ordered_nil⟩

namespace Context

theorem ordered_addTo (h : (Json.object members).Ordered) (hv : c.value.Ordered)
    (hadd : c.addTo s members = .ok changed) : (Json.object changed).Ordered := by
  obtain ⟨hitems, hinner⟩ := ordered_slot h s.name
  unfold addTo at hadd
  split at hadd
  case isTrue =>
      cases hadd
      exact Members.ordered_put h _ (ordered_appendAllNew hitems (ordered_incoming hv))
  case isFalse =>
      split at hadd
      case isTrue =>
          split at hadd
          case h_1 fields hfields =>
              obtain ⟨merged, hmerge, hadd⟩ := ok_of_bind hadd
              cases hadd
              rw [hfields] at hv
              cases hv with
              | object _ values =>
                  exact Members.ordered_put h _ (ordered_merge hinner values hmerge)
          case h_2 => cases hadd
      case isFalse =>
          cases hadd
          exact Members.ordered_put h _ hv

theorem ordered_change (h : (Json.object members).Ordered) (hv : c.value.Ordered)
    (hchange : c.change s members = .ok changed) : (Json.object changed).Ordered := by
  unfold change at hchange
  split at hchange
  case h_1 => exact ordered_addTo h hv hchange
  case h_2 =>
      cases hchange
      exact Members.ordered_remove h _
  case h_3 =>
      split at hchange
      case isTrue =>
          cases hchange
          exact Members.ordered_remove h _
      case isFalse =>
          cases hchange
          exact Members.ordered_put h _ hv

theorem ordered_last (h : (Json.object members).Ordered) (hv : c.value.Ordered)
    (hlast : c.last a members step = .ok changed) : (Json.object changed).Ordered := by
  unfold last at hlast
  split at hlast
  case h_1 => cases hlast
  case h_2 =>
      split at hlast
      case h_1 => exact ordered_change h hv hlast
      case h_2 => cases hlast

theorem ordered_lastInElement (h : v.Ordered) (hv : c.value.Ordered)
    (hlast : c.lastInElement a step v = .ok w) : w.Ordered := by
  unfold lastInElement at hlast
  split at hlast
  case h_1 =>
      obtain ⟨changed, hchanged, hlast⟩ := ok_of_bind hlast
      cases hlast
      exact ordered_last h hv hchanged
  case h_2 => cases hlast

theorem ordered_changeElements {filtered : Bool} {accepts : Json → Bool}
    (hitems : ∀ v ∈ items, v.Ordered) (hv : c.value.Ordered)
    (hchange : c.changeElements filtered accepts items = .ok found) :
    (Json.array found).Ordered := by
  unfold changeElements at hchange
  split at hchange
  case h_1 =>
      split at hchange
      case isTrue => cases hchange
      case isFalse =>
          cases hchange
          exact ordered_appendAllNew hitems (ordered_incoming hv)
  case h_2 =>
      split at hchange
      case isTrue => cases hchange
      case isFalse =>
          cases hchange
          refine .array fun v hmem => ?_
          obtain ⟨w, hw, rfl⟩ := List.mem_map.mp hmem
          split
          case isTrue => exact hv
          case isFalse => exact hitems w hw
  case h_3 =>
      cases hchange
      exact .array fun v hmem => hitems v (List.mem_filter.mp hmem).1

theorem ordered_changeInElements {filtered : Bool} {accepts : Json → Bool}
    (hitems : ∀ v ∈ items, v.Ordered) (hv : c.value.Ordered)
    (hchange : c.changeInElements a filtered accepts step items = .ok found) :
    (Json.array found).Ordered := by
  unfold changeInElements at hchange
  split at hchange
  case isTrue => cases hchange
  case isFalse =>
      refine .array fun w hmem => ?_
      obtain ⟨u, hu, hlast⟩ := exists_of_mapM hchange w hmem
      split at hlast
      case isTrue => exact ordered_lastInElement (hitems u hu) hv hlast
      case isFalse =>
          cases hlast
          exact hitems _ hu

theorem ordered_throughElements {filtered : Bool} {accepts : Json → Bool}
    (hitems : ∀ v ∈ items, v.Ordered) (hv : c.value.Ordered)
    (hthrough : c.throughElements a filtered accepts items rest = .ok found) :
    (Json.array found).Ordered := by
  unfold throughElements at hthrough
  split at hthrough
  case h_1 => exact ordered_changeElements hitems hv hthrough
  case h_2 => exact ordered_changeInElements hitems hv hthrough
  case h_3 => cases hthrough

theorem ordered_throughArray (hitems : ∀ v ∈ items, v.Ordered) (hv : c.value.Ordered)
    (hthrough : c.throughArray a items rest = .ok found) : (Json.array found).Ordered := by
  unfold throughArray at hthrough
  split at hthrough
  case h_1 => exact ordered_throughElements hitems hv hthrough
  case h_2 => exact ordered_throughElements hitems hv hthrough

theorem ordered_openSlot (h : v.Ordered) (hopen : c.openSlot a v = .ok (.value w)) :
    w.Ordered := by
  unfold openSlot at hopen
  split at hopen
  case isTrue =>
      split at hopen
      case h_1 =>
          split at hopen
          case isTrue => cases hopen
          case isFalse hmulti =>
              split at hopen
              case isTrue hcomplex =>
                  cases hopen
                  rw [Attribute.zeroValue, if_neg hmulti, if_pos hcomplex]
                  exact ordered_nil
              case isFalse => cases hopen
      case h_2 => cases hopen
      case h_3 => cases hopen
  case isFalse =>
      cases hopen
      exact h

/-- The steps of a path keep members in order. -/
theorem ordered_along (h : (Json.object members).Ordered) (hv : c.value.Ordered)
    (halong : c.along a members step rest = .ok changed) : (Json.object changed).Ordered := by
  induction rest generalizing a members step changed with
  | nil => exact ordered_last h hv halong
  | cons next rest ih =>
      cases along_iff.mp halong with
      | done => exact h
      | @object _ s _ _ _ hopen hmade =>
          have hinner := ordered_openSlot (Json.ordered_valueOf h s.name) hopen
          exact Members.ordered_put h _ (ih hinner hmade)
      | @array _ s _ _ _ hopen hmade =>
          have hitems := ordered_openSlot (Json.ordered_valueOf h s.name) hopen
          have hmade := ordered_throughArray (fun v => Json.ordered_item hitems) hv hmade
          exact Members.ordered_put h _ hmade

end Context

theorem ordered_spreadOut {verb : Verb} (h : (Json.object members).Ordered)
    (hfields : ∀ m ∈ fields, m.2.Ordered)
    (hspread : spreadOut verb a members fields = .ok changed) :
    (Json.object changed).Ordered := by
  induction fields generalizing members with
  | nil =>
      cases hspread
      exact h
  | cons m rest ih =>
      obtain ⟨hv, hrest⟩ := List.forall_mem_cons.mp hfields
      obtain ⟨next, hnext, hspread⟩ := ok_of_bind hspread
      exact ih (Context.ordered_last h hv hnext) hrest hspread

/-- An operation with a value in order keeps members in order. -/
theorem Operation.ordered_apply {limit : Nat} {o : Operation} (h : (Json.object members).Ordered)
    (hv : o.value.Ordered) (happly : o.apply limit a members = .ok changed) :
    (Json.object changed).Ordered := by
  have hpathless : o.applyPathless a members = .ok changed → (Json.object changed).Ordered := by
    intro happly
    unfold applyPathless at happly
    split at happly
    case isTrue => cases happly
    case isFalse =>
        split at happly
        case h_1 fields hfields =>
            rw [hfields] at hv
            cases hv with
            | object _ values => exact ordered_spreadOut h values happly
        case h_2 => cases happly
  unfold Operation.apply at happly
  split at happly
  case isTrue => exact hpathless happly
  case isFalse =>
      split at happly
      case h_1 => cases happly
      case h_2 => exact hpathless happly
      case h_3 => exact Context.ordered_along h hv happly

theorem ordered_applyAll {limit index : Nat} {operations : List Operation}
    (h : (Json.object members).Ordered) (hvalues : ∀ o ∈ operations, o.value.Ordered)
    (happly : applyAll limit a index members operations = .ok changed) :
    (Json.object changed).Ordered := by
  induction operations generalizing members index with
  | nil =>
      cases happly
      exact h
  | cons o rest ih =>
      obtain ⟨ho, hrest⟩ := List.forall_mem_cons.mp hvalues
      rw [applyAll] at happly
      split at happly
      case h_1 next hnext => exact ih (o.ordered_apply h ho hnext) hrest happly
      case h_2 => cases happly

/-- A request with values in order keeps members in order. -/
theorem Request.ordered_apply {limit : Nat} {schema : Schema} {request : Request}
    (h : (Json.object members).Ordered) (hrequest : request.InOrder)
    (happly : request.apply limit schema members = .ok changed) :
    (Json.object changed).Ordered := by
  unfold Request.apply at happly
  split at happly
  case isTrue => exact ordered_applyAll h hrequest happly
  case isFalse => cases happly

end Patch

/-! ## Enforcement -/

/-- The enforcement of mutability keeps a resource in order. -/
theorem Validation.ordered_enforceMutability {schema : Schema} {r : Resource}
    {stored : Option Resource} (h : schema.Accepted) (hordered : r.toJson.Ordered)
    (hstored : ∀ s ∈ stored, s.toJson.Ordered) :
    (enforceMutability schema stored r).value.toJson.Ordered := by
  have hreference : ∀ others ∈ stored.map (·.members), (Json.object others).Ordered := by
    intro others hothers
    obtain ⟨s, hs, rfl⟩ := Option.map_eq_some_iff.mp hothers
    exact hstored s hs
  exact (walkAll_keeps h.sound.distinct (fun _ ha => ha) hordered
    fun a ha v hv => visitAttribute_keeps (h.sound.sub ha) hreference hv).1

/-! ## Resources -/

namespace Resource

variable {r : Resource}

theorem ordered_empty (schemaId : String) : (empty schemaId).toJson.Ordered := by
  refine .object (List.pairwise_singleton _ _) (List.forall_mem_singleton.mpr (.array ?_))
  exact List.forall_mem_singleton.mpr (.string schemaId)

theorem ordered_set (h : r.toJson.Ordered) (name : String) {v : Json} (hv : v.Ordered) :
    (r.set name v).toJson.Ordered := Members.ordered_put h _ hv

theorem ordered_remove (h : r.toJson.Ordered) (name : String) :
    (r.remove name).toJson.Ordered := by
  unfold remove
  split
  case h_1 key _ => exact Members.ordered_remove h key
  case h_2 => exact h

theorem ordered_setMeta (h : r.toJson.Ordered) (m : Meta) : (r.setMeta m).toJson.Ordered := by
  refine ordered_set h "meta" (Members.ordered_ofPairs fun p hp => ?_)
  obtain ⟨text, htext⟩ : ∃ text, p.2 = .string text := by
    simp only [List.mem_append, List.mem_cons, List.not_mem_nil, or_false, Option.mem_toList,
      Option.map_eq_some_iff] at hp
    rcases hp with ((rfl | rfl | rfl) | ⟨text, _, rfl⟩) | ⟨text, _, rfl⟩ <;> exact ⟨_, rfl⟩
  rw [htext]
  exact .string text

end Resource

namespace CommandLine

/-- A resource that is read from a text is in order. -/
theorem ordered_of_resource? {text : String} {r : Resource} (h : resource? text = some r) :
    r.toJson.Ordered := by
  obtain ⟨members, hmembers, rfl⟩ := Option.map_eq_some_iff.mp h
  obtain ⟨v, hv, hobject⟩ := Option.bind_eq_some_iff.mp hmembers
  cases v with
  | object =>
      cases hobject
      exact Json.ordered_of_ofText? hv
  | _ => cases hobject

theorem inOrder_of_patchRequest? {text : String} {request : Patch.Request}
    (h : patchRequest? text = some request) : request.InOrder := by
  obtain ⟨w, _, hw⟩ := Option.bind_eq_some_iff.mp h
  exact Patch.Request.inOrder_of_ofWritten? hw

end CommandLine

namespace Service

variable {s : Service} {schema : Schema} {r changed : Resource} {stored : Option Resource}

/-- What a change request makes of a resource in order is in order. -/
theorem ordered_patch {request : Patch.Request} (h : r.toJson.Ordered)
    (hrequest : request.InOrder) (hpatch : s.patch schema r request = .ok changed) :
    changed.toJson.Ordered := by
  unfold patch at hpatch
  split at hpatch
  case isTrue => cases hpatch
  case isFalse =>
      obtain ⟨members, hmembers, hpatch⟩ := ok_of_bind hpatch
      cases hpatch
      exact request.ordered_apply h hrequest hmembers

theorem ordered_andThen {edited : Walk.Edited Validation.Error Resource}
    {check : Resource → Except Validation.Error Unit} (h : edited.value.toJson.Ordered) :
    (andThen edited check).value.toJson.Ordered := by
  unfold andThen
  split
  case h_1 => exact h
  case h_2 => exact h

/-- What a check makes of a resource in order is in order, whether it passes or not. -/
theorem ordered_validate (hschema : schema.Accepted) (h : r.toJson.Ordered)
    (hstored : ∀ s ∈ stored, s.toJson.Ordered) :
    (validate schema stored r).value.toJson.Ordered :=
  ordered_andThen (ordered_andThen (Validation.ordered_enforceMutability hschema h hstored))

end Service

end Scim
