import Scim.Proofs.Patch.Descent
import Scim.Proofs.Patch.WorkingCopy

/-!
# Requests are made as a whole

A request is the sequence of its operations: to perform two lists of operations as one request is
to perform the first one and then, on what it has made, the second one.  A request that fails
leaves the resource as it was, whatever its operations have done to the working copy, and the error
tells the first operation that fails where those before it have led to
(`Service.perform_append`).

The cause of such an error is the operation's own.  It is never the failure of a slot that has
vanished, since an operation enters a slot only after it has filled it (`FailsDirectly`).
-/

namespace Scim

open Walk (Edited)

namespace Patch

variable {α β : Type} {limit : Nat} {path : String} {a s element root : Attribute}
  {members fields reached changed : Members} {v : Json} {vs : List Json} {step : Path.Step}
  {steps rest : List Path.Step} {o : Operation} {operations xs ys : List Operation}
  {cause e : Error} {index : Nat}

/-! ## Causes -/

/-- An error that is not one of an operation in a request and not an inner failure. -/
def Error.IsDirect : Error → Prop
  | operation _ _ => False
  | failed _ => False
  | _ => True

theorem Error.rootCause_of_isDirect (h : cause.IsDirect) : cause.rootCause = cause := by
  cases cause with
  | operation => exact h.elim
  | _ => rfl

/-- A computation whose errors are direct. -/
def FailsDirectly (x : Except Error α) : Prop := ∀ cause, x = .error cause → cause.IsDirect

@[simp] theorem failsDirectly_ok (v : α) : FailsDirectly (.ok v) := by simp [FailsDirectly]

@[simp] theorem failsDirectly_error :
    FailsDirectly (.error cause : Except Error α) ↔ cause.IsDirect := by
  simp [FailsDirectly]

theorem FailsDirectly.bind {x : Except Error α} {f : α → Except Error β}
    (hx : FailsDirectly x) (hf : ∀ v, FailsDirectly (f v)) : FailsDirectly (x >>= f) := by
  cases x with
  | error cause => exact fun _ h => hx _ (by cases h; rfl)
  | ok v => exact hf v

theorem FailsDirectly.mapM {f : α → Except Error β} (hf : ∀ v, FailsDirectly (f v)) (vs : List α) :
    FailsDirectly (vs.mapM f) := by
  induction vs with
  | nil => exact failsDirectly_ok _
  | cons v rest ih =>
      rw [List.mapM_cons]
      exact (hf v).bind fun _ => ih.bind fun _ => failsDirectly_ok _

theorem failsDirectly_merge : FailsDirectly (merge path a members fields) := by
  induction fields generalizing members with
  | nil => exact failsDirectly_ok _
  | cons field rest ih =>
      rw [merge]
      split
      · exact ih
      · simp [Error.IsDirect]

namespace Context

variable {c : Context} {accepts : Json → Bool} {filtered : Bool}

theorem failsDirectly_addTo : FailsDirectly (c.addTo a members) := by
  unfold addTo
  split
  · simp
  split
  · split
    · exact failsDirectly_merge.bind fun _ => failsDirectly_ok _
    · simp [Error.IsDirect]
  · simp

theorem failsDirectly_last : FailsDirectly (c.last a members step) := by
  cases step with
  | filter tree => simp [last, Error.IsDirect]
  | name name =>
      rw [last]
      split
      · unfold change
        cases c.verb with
        | add => exact failsDirectly_addTo
        | remove => simp
        | replace => dsimp only; split <;> simp
      · simp [Error.IsDirect]

theorem failsDirectly_lastInElement : FailsDirectly (c.lastInElement element step v) := by
  cases v with
  | object members => exact failsDirectly_last.bind fun _ => failsDirectly_ok _
  | _ => simp [lastInElement, shapeError, Error.IsDirect]

theorem failsDirectly_throughElements :
    FailsDirectly (c.throughElements element filtered accepts vs steps) := by
  rcases steps with _ | ⟨step, _ | ⟨next, rest⟩⟩
  · simp only [throughElements, changeElements]
    cases c.verb with
    | remove => simp
    | _ => dsimp only; split <;> simp [Error.IsDirect]
  · simp only [throughElements, changeInElements]
    split
    · simp [Error.IsDirect]
    · refine .mapM (fun v => ?_) vs
      split
      · exact failsDirectly_lastInElement
      · exact failsDirectly_ok v
  · simp [throughElements, Error.IsDirect]

theorem failsDirectly_throughArray : FailsDirectly (c.throughArray a vs steps) := by
  unfold throughArray
  split <;> exact failsDirectly_throughElements

theorem failsDirectly_openSlot : FailsDirectly (c.openSlot s v) := by
  unfold openSlot
  split
  · cases c.verb with
    | add =>
        dsimp only
        split
        · simp
        · split <;> simp [shapeError, Error.IsDirect]
    | _ => simp [Error.IsDirect]
  · simp

theorem failsDirectly_along : FailsDirectly (c.along a members step rest) := by
  induction rest generalizing a members step with
  | nil => exact failsDirectly_last
  | cons next rest ih =>
      cases step with
      | filter tree => simp [along, Error.IsDirect]
      | name name =>
          rw [along]
          split
          · simp [Error.IsDirect]
          · refine failsDirectly_openSlot.bind fun slot => ?_
            split
            · simp
            · exact ih.bind fun _ => failsDirectly_ok _
            · exact failsDirectly_throughArray.bind fun _ => failsDirectly_ok _
            · simp [shapeError, Error.IsDirect]

end Context

theorem failsDirectly_spreadOut {verb : Verb} :
    FailsDirectly (spreadOut verb root members fields) := by
  induction fields generalizing members with
  | nil => exact failsDirectly_ok _
  | cons field rest ih => exact Context.failsDirectly_last.bind fun _ => ih

theorem Operation.failsDirectly_applyPathless : FailsDirectly (o.applyPathless root members) := by
  unfold applyPathless
  split
  · simp [Error.IsDirect]
  · split
    · exact failsDirectly_spreadOut
    · simp [Error.IsDirect]

/-- The error of an operation is its own. -/
theorem Operation.failsDirectly_apply : FailsDirectly (o.apply limit root members) := by
  unfold apply
  split
  · exact failsDirectly_applyPathless
  · split
    · simp [Error.IsDirect]
    · exact failsDirectly_applyPathless
    · exact Context.failsDirectly_along

/-! ## Sequences of operations -/

theorem applyAll_append (limit : Nat) (root : Attribute) (index : Nat) (members : Members)
    (xs ys : List Operation) :
    applyAll limit root index members (xs ++ ys) = (do
      let reached ← applyAll limit root index members xs
      applyAll limit root (index + xs.length) reached ys) := by
  induction xs generalizing index members with
  | nil => rfl
  | cons o rest ih =>
      simp only [List.cons_append, applyAll]
      cases o.apply limit root members with
      | error cause => rfl
      | ok changed =>
          simp only [ih]
          rw [List.length_cons, Nat.add_right_comm, Nat.add_assoc]

/-- What operations make does not depend on the number of the first one. -/
theorem applyAll_eq_ok (other : Nat)
    (h : applyAll limit root index members operations = .ok changed) :
    applyAll limit root other members operations = .ok changed := by
  induction operations generalizing index other members with
  | nil => exact h
  | cons o rest ih =>
      rw [applyAll] at h ⊢
      cases happly : o.apply limit root members with
      | error cause => rw [happly] at h; cases h
      | ok reached =>
          rw [happly] at h
          exact ih _ h

/-- The operation of an index fails where the operations before it have led to. -/
def FailsAt (limit : Nat) (root : Attribute) (members : Members) (operations : List Operation)
    (index : Nat) (cause : Error) : Prop :=
  ∃ reached o, applyAll limit root 0 members (operations.take index) = .ok reached ∧
    operations[index]? = some o ∧ o.apply limit root reached = .error cause

/-- Operations fail with the cause of one that fails where those before it have led to. -/
theorem failsAt_of_applyAll (h : applyAll limit root index members operations = .error e) :
    ∃ i cause, e = .operation (index + i) cause ∧
      FailsAt limit root members operations i cause := by
  induction operations generalizing index members with
  | nil => cases h
  | cons o rest ih =>
      rw [applyAll] at h
      cases happly : o.apply limit root members with
      | error cause =>
          rw [happly] at h
          cases h
          exact ⟨0, cause, rfl, members, o, rfl, rfl, happly⟩
      | ok changed =>
          rw [happly] at h
          obtain ⟨i, cause, rfl, reached, p, hreached, hp, hfails⟩ := ih h
          refine ⟨i + 1, cause, by rw [Nat.add_right_comm, Nat.add_assoc], reached, p, ?_, hp,
            hfails⟩
          rw [List.take_succ_cons, applyAll, happly]
          exact applyAll_eq_ok 1 hreached

/-- Where an operation fails, those before it have not failed. -/
theorem FailsAt.first {other : Error} {earlier : Nat}
    (h : FailsAt limit root members operations index cause) (hlt : earlier < index) :
    ¬ FailsAt limit root members operations earlier other := by
  rintro ⟨before, o, hbefore, ho, hfails⟩
  obtain ⟨reached, _, hreached, _, _⟩ := h
  obtain ⟨hlength, hget⟩ : ∃ hlength, (operations.take index)[earlier] = o := by
    rw [← List.getElem?_eq_some_iff, List.getElem?_take_of_lt hlt, ho]
  have hsplit : operations.take index =
      operations.take earlier ++ o :: (operations.take index).drop (earlier + 1) := by
    rw [← hget, ← List.drop_eq_getElem_cons hlength, ← Nat.min_eq_left (Nat.le_of_lt hlt),
      ← List.take_take, Nat.min_eq_left (Nat.le_of_lt hlt), List.take_append_drop]
  rw [hsplit, applyAll_append, hbefore] at hreached
  simp [applyAll, hfails] at hreached

end Patch

/-! ## Requests -/

namespace Service

open Patch (Operation Request)

variable {s : Service} {schema : Schema} {r left : Resource} {operations : List Operation}

/-- What a request of operations does to a resource, if there are not too many. -/
theorem perform_ofOperations (h : operations.length ≤ s.limits.maxPatchOperations) :
    s.perform schema r (.ofOperations operations) =
      .atOnce r ((Patch.applyAll s.limits.maxFilterLength schema.root 0 r.members operations).map
        .mk) := by
  rw [perform_eq, patch, if_neg (by simpa [Request.ofOperations] using h)]
  rw [Request.apply_ofOperations]
  cases Patch.applyAll s.limits.maxFilterLength schema.root 0 r.members operations <;> rfl

/-- The operation of an index fails on the resource that the request of those before it has
made. -/
def FailsAt (s : Service) (schema : Schema) (r : Resource) (operations : List Operation)
    (index : Nat) (cause : Patch.Error) : Prop :=
  ∃ reached o, s.perform schema r (.ofOperations (operations.take index)) = .done reached ∧
    operations[index]? = some o ∧
    (o.applyInPlace s.limits.maxFilterLength schema.root reached.members).outcome = .error cause

theorem failsAt_iff {index : Nat} {cause : Patch.Error}
    (h : operations.length ≤ s.limits.maxPatchOperations) :
    s.FailsAt schema r operations index cause ↔
      Patch.FailsAt s.limits.maxFilterLength schema.root r.members operations index cause := by
  have htake : (operations.take index).length ≤ s.limits.maxPatchOperations :=
    Nat.le_trans (List.length_take_le' index operations) h
  simp only [FailsAt, Patch.FailsAt, perform_ofOperations htake, Edited.atOnce_eq_done,
    Operation.outcome_applyInPlace]
  constructor
  · rintro ⟨reached, o, hreached, ho, hfails⟩
    obtain ⟨members, hmembers, rfl⟩ := ok_of_map hreached
    exact ⟨members, o, hmembers, ho, hfails⟩
  · rintro ⟨members, o, hmembers, ho, hfails⟩
    exact ⟨⟨members⟩, o, by rw [hmembers]; rfl, ho, hfails⟩

/-- A request that succeeds is the requests of its parts, one after the other.  A request that
fails leaves the resource as it was, and its error is that of the first operation that fails where
those before it have led to. -/
theorem perform_append (s : Service) (schema : Schema) (r : Resource) (xs ys : List Operation)
    (hcount : xs.length + ys.length ≤ s.limits.maxPatchOperations) :
    (s.perform schema r (.ofOperations (xs ++ ys))).outcome =
      s.patch schema r (.ofOperations (xs ++ ys)) ∧
    (∀ changed, s.perform schema r (.ofOperations (xs ++ ys)) = .done changed ↔
      ∃ reached, s.perform schema r (.ofOperations xs) = .done reached ∧
        s.perform schema reached (.ofOperations ys) = .done changed) ∧
    ∀ left e, s.perform schema r (.ofOperations (xs ++ ys)) = .failed left e →
      left = r ∧ (∀ reason, e.rootCause ≠ .failed reason) ∧
      ∃ index cause, e = .operation index cause ∧ s.FailsAt schema r (xs ++ ys) index cause ∧
        ∀ earlier < index, ∀ other, ¬ s.FailsAt schema r (xs ++ ys) earlier other := by
  have hlength : (xs ++ ys).length ≤ s.limits.maxPatchOperations := by
    rwa [List.length_append]
  have hxs : xs.length ≤ s.limits.maxPatchOperations := by omega
  have hys : ys.length ≤ s.limits.maxPatchOperations := by omega
  refine ⟨by rw [perform_eq, Edited.outcome_atOnce], fun changed => ?_, fun left e h => ?_⟩
  · simp only [perform_ofOperations hlength, perform_ofOperations hxs, perform_ofOperations hys,
      Edited.atOnce_eq_done, Patch.applyAll_append]
    constructor
    · intro h
      obtain ⟨members, hmembers, rfl⟩ := ok_of_map h
      obtain ⟨reached, hreached, hmembers⟩ := ok_of_bind hmembers
      exact ⟨⟨reached⟩, by rw [hreached]; rfl, by rw [Patch.applyAll_eq_ok 0 hmembers]; rfl⟩
    · rintro ⟨reached, hreached, h⟩
      obtain ⟨half, hhalf, rfl⟩ := ok_of_map hreached
      obtain ⟨members, hmembers, rfl⟩ := ok_of_map h
      rw [hhalf, ok_bind, Patch.applyAll_eq_ok _ hmembers]
      rfl
  · rw [perform_ofOperations hlength, Edited.atOnce_eq_failed] at h
    obtain ⟨rfl, h⟩ := h
    obtain ⟨index, cause, rfl, hfails⟩ := Patch.failsAt_of_applyAll (error_of_map h)
    rw [Nat.zero_add]
    refine ⟨rfl, ?_, index, cause, rfl, (failsAt_iff hlength).mpr hfails, ?_⟩
    · obtain ⟨reached, o, _, _, happly⟩ := hfails
      have hdirect : cause.IsDirect := Operation.failsDirectly_apply cause happly
      rintro reason hreason
      rw [Patch.Error.rootCause, Patch.Error.rootCause_of_isDirect hdirect] at hreason
      rw [hreason] at hdirect
      exact hdirect
    · intro earlier hearlier other hother
      exact hfails.first hearlier ((failsAt_iff hlength).mp hother)

/-- A group gets a new name and a member in one request as in two.  If it is to get a nickname
too, which groups do not have, it keeps its old name. -/
theorem perform_append_group :
    let s : Service := ⟨[Schema.group], {}⟩
    let before : Resource := ⟨[("displayName", .string "Ops")]⟩
    let after : Resource := ⟨[("displayName", .string "Operators"),
      ("members", .array [.object [("value", .string "u1")]])]⟩
    let rename : Operation := ⟨.replace, none, .object [("displayName", .string "Operators")]⟩
    let join : Operation :=
      ⟨.add, none, .object [("members", .array [.object [("value", .string "u1")]])]⟩
    let spoil : Operation := ⟨.replace, none, .object [("displayName", .string "Operations"),
      ("nickname", .string "ops")]⟩
    [rename].length + [join].length ≤ s.limits.maxPatchOperations ∧
    [rename].length + [spoil].length ≤ s.limits.maxPatchOperations ∧
    (∃ reached, s.perform Schema.group before (.ofOperations [rename]) = .done reached ∧
      s.perform Schema.group reached (.ofOperations [join]) = .done after) ∧
    ∃ index cause, s.perform Schema.group before (.ofOperations ([rename] ++ [spoil])) =
        .failed before (.operation index cause) ∧
      s.FailsAt Schema.group before ([rename] ++ [spoil]) index cause := by
  intro s before after rename join spoil
  have hjoin : [rename].length + [join].length ≤ s.limits.maxPatchOperations := by decide
  have hspoil : [rename].length + [spoil].length ≤ s.limits.maxPatchOperations := by decide
  refine ⟨hjoin, hspoil, ?_, ?_⟩
  · obtain ⟨_, hdone, _⟩ := perform_append s Schema.group before [rename] [join] hjoin
    have hrun : s.perform Schema.group before (.ofOperations ([rename] ++ [join])) =
        .done after := by
      dsimp only [s, before, after, rename, join]
      rfl
    exact (hdone after).mp hrun
  · obtain ⟨left, e, hrun⟩ : ∃ left e,
        s.perform Schema.group before (.ofOperations ([rename] ++ [spoil])) = .failed left e :=
      ⟨_, _, rfl⟩
    obtain ⟨_, _, hfailed⟩ := perform_append s Schema.group before [rename] [spoil] hspoil
    obtain ⟨rfl, _, index, cause, rfl, hfails, _⟩ := hfailed left e hrun
    exact ⟨index, cause, hrun, hfails⟩

end Service

end Scim
