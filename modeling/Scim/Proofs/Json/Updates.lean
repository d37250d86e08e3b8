import Scim.Proofs.Json.Footprint

/-!
# Updates of members

An update looks up the value of a name, if there is one, and puts another value into its slot.  Two
updates of one name are one update, and updates of names that are not alike can be made in either
order (`Update.on_comm`).

A list of updates is performed in order.  If it is of a kind that is closed under joining the
updates of one name, and of which no single update does more when it is repeated, then the whole
list does not either, however its names are mixed (`Update.all_all`).  For all updates of one name
can be moved to the front and joined there (`Update.exists_joined`).
-/

namespace Scim

/-- A change of the value of a name. -/
structure Update where
  /-- The name. -/
  name : String
  /-- The new value where a value is found or none. -/
  value : Option Json → Json

namespace Update

variable {u w : Update} {us : List Update} {members : Members} {name : String}
  {f g : Option Json → Json}

/-- The members after an update. -/
def on (u : Update) (members : Members) : Members :=
  members.put (members.slot u.name) (u.value (members.named? u.name))

/-- The members after updates in order. -/
def all (us : List Update) (members : Members) : Members := us.foldl (fun m u => u.on m) members

/-- A kind of updates of different attributes.  Two of one name are together one of the kind, and
none does more when it is repeated. -/
structure Closed (kind : Update → Prop) : Prop where
  apart : ∀ {u w : Update}, kind u → kind w → u.name ≠ w.name →
    Text.alike u.name w.name = false
  join : ∀ {name : String} {f g : Option Json → Json}, kind ⟨name, f⟩ → kind ⟨name, g⟩ →
    kind ⟨name, fun found => g (some (f found))⟩
  again : ∀ {name : String} {f : Option Json → Json}, kind ⟨name, f⟩ →
    ∀ found, f (some (f found)) = f found

/-- Two updates of one name are one. -/
theorem on_on (members : Members) :
    (Update.mk name g).on ((Update.mk name f).on members) =
      (Update.mk name fun found => g (some (f found))).on members := by
  simp only [on, Members.slot_put_slot, Members.named?_put_slot, Members.put_put_self]

/-- Updates of names that are not alike can be made in either order. -/
theorem on_comm (h : Text.alike u.name w.name = false) (members : Members) :
    u.on (w.on members) = w.on (u.on members) := by
  have hslot : Text.alike (members.slot u.name) w.name = false :=
    Text.not_alike_of_alike (Members.alike_slot members u.name) h
  have hslot' : Text.alike (members.slot w.name) u.name = false :=
    Text.not_alike_of_alike (Members.alike_slot members w.name) (by rw [Text.alike_comm, h])
  have hne : members.slot u.name ≠ members.slot w.name := by
    intro heq
    rw [heq, Members.alike_slot] at hslot
    cases hslot
  simp only [on, Members.slot_put_of_not_alike hslot, Members.slot_put_of_not_alike hslot',
    Members.named?_put hslot, Members.named?_put hslot']
  exact Members.put_put_comm hne _ _ members

/-- An update can be made before or after others if its name is not like any of theirs. -/
theorem all_on (h : ∀ w ∈ us, Text.alike u.name w.name = false) (members : Members) :
    all us (u.on members) = u.on (all us members) := by
  induction us generalizing members with
  | nil => rfl
  | cons w rest ih =>
      obtain ⟨hw, hrest⟩ := List.forall_mem_cons.mp h
      show all rest (w.on (u.on members)) = u.on (all rest (w.on members))
      rw [← on_comm hw, ih hrest]

variable {kind : Update → Prop}

/-- The updates of one name can be joined in front of the others. -/
theorem exists_joined (hclosed : Closed kind) (hu : kind u) (hus : ∀ w ∈ us, kind w) :
    ∃ f, kind ⟨u.name, f⟩ ∧ ∀ members,
      all (u :: us) members =
        all (us.filter (·.name ≠ u.name)) ((Update.mk u.name f).on members) := by
  induction us generalizing u with
  | nil => exact ⟨u.value, hu, fun _ => rfl⟩
  | cons w rest ih =>
      obtain ⟨hw, hrest⟩ := List.forall_mem_cons.mp hus
      by_cases hname : w.name = u.name
      · obtain ⟨name, f⟩ := u
        obtain ⟨name', g⟩ := w
        dsimp only at hname
        subst hname
        obtain ⟨joined, hjoined, hall⟩ := ih (hclosed.join hu hw) hrest
        refine ⟨joined, hjoined, fun members => ?_⟩
        rw [List.filter_cons_of_neg (by simp)]
        show all rest ((Update.mk _ g).on ((Update.mk _ f).on members)) = _
        rw [on_on]
        exact hall members
      · obtain ⟨joined, hjoined, hall⟩ := ih hu hrest
        refine ⟨joined, hjoined, fun members => ?_⟩
        have happart := hclosed.apart hu hw (Ne.symm hname)
        rw [List.filter_cons_of_pos (by simpa using hname)]
        show all rest (w.on (u.on members)) = all _ (w.on ((Update.mk u.name joined).on members))
        rw [← on_comm happart, ← on_comm (u := ⟨u.name, joined⟩) happart]
        exact hall (w.on members)

/-- A list of updates of a closed kind does nothing more when it is repeated. -/
theorem all_all (hclosed : Closed kind) : ∀ {us : List Update}, (∀ u ∈ us, kind u) →
    ∀ members : Members, all us (all us members) = all us members
  | [], _, _ => rfl
  | u :: rest, hus, members => by
      obtain ⟨hu, hrest⟩ := List.forall_mem_cons.mp hus
      obtain ⟨f, hf, hall⟩ := exists_joined hclosed hu hrest
      have hothers : ∀ w ∈ rest.filter (·.name ≠ u.name), kind w :=
        fun w hw => hrest w (List.mem_filter.mp hw).1
      have happart : ∀ w ∈ rest.filter (·.name ≠ u.name), Text.alike u.name w.name = false := by
        intro w hw
        have hne : w.name ≠ u.name := by simpa using (List.mem_filter.mp hw).2
        exact hclosed.apart hu (hothers w hw) hne.symm
      have hagain : ∀ ms, (Update.mk u.name f).on ((Update.mk u.name f).on ms) =
          (Update.mk u.name f).on ms := by
        intro ms
        rw [on_on, funext (hclosed.again hf)]
      rw [hall, hall, ← all_on (u := ⟨u.name, f⟩) happart, hagain]
      exact all_all hclosed hothers _
termination_by us => us.length
decreasing_by exact Nat.lt_succ_of_le (List.length_filter_le _ _)

end Update

end Scim
