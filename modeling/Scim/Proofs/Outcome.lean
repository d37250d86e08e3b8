/-!
# Computations that can fail

What is known of the parts of a computation once the whole has given something, and of two
computations that run in parallel.
-/

namespace Scim

variable {ε α β : Type}

@[simp] theorem ok_bind (v : α) (f : α → Except ε β) : (Except.ok v >>= f) = f v := rfl

@[simp] theorem error_bind (e : ε) (f : α → Except ε β) :
    ((Except.error e : Except ε α) >>= f) = .error e := rfl

/-- What the first part of a computation gives, if the whole gives something. -/
theorem ok_of_bind {x : Except ε α} {f : α → Except ε β} {y : β} (h : (x >>= f) = .ok y) :
    ∃ w, x = .ok w ∧ f w = .ok y := by
  cases x with
  | error e => cases h
  | ok w => exact ⟨w, rfl, h⟩

theorem ok_of_map {x : Except ε α} {f : α → β} {y : β} (h : x.map f = .ok y) :
    ∃ w, x = .ok w ∧ f w = y := by
  cases x with
  | error e => cases h
  | ok w => exact ⟨w, rfl, Except.ok.inj h⟩

theorem error_of_map {x : Except ε α} {f : α → β} {e : ε} (h : x.map f = .error e) :
    x = .error e := by
  cases x with
  | error e =>
      cases h
      rfl
  | ok w => cases h

theorem ok_of_mapError {ε' : Type} {x : Except ε α} {f : ε → ε'} {y : α}
    (h : x.mapError f = .ok y) : x = .ok y := by
  cases x with
  | error e => cases h
  | ok w => exact congrArg _ (Except.ok.inj h)

theorem ok_of_toOption {x : Except ε α} {y : α} (h : x.toOption = some y) : x = .ok y := by
  cases x with
  | error e => cases h
  | ok w => exact congrArg _ (Option.some.inj h)

theorem error_of_toOption {x : Except ε α} (h : x.toOption = none) : ∃ e, x = .error e := by
  cases x with
  | error e => exact ⟨e, rfl⟩
  | ok w => cases h

theorem toOption_mapError {ε' : Type} (x : Except ε α) (f : ε → ε') :
    (x.mapError f).toOption = x.toOption := by
  cases x <;> rfl

theorem toOption_bind (x : Except ε α) (f : α → Except ε β) :
    (x >>= f).toOption = x.toOption >>= fun v => (f v).toOption := by
  cases x <;> rfl

/-- Two results that are related, or two errors that are. -/
inductive Parallel (errors : ε → ε → Prop) (values : α → α → Prop) :
    Except ε α → Except ε α → Prop
  | ok {x y : α} (h : values x y) : Parallel errors values (.ok x) (.ok y)
  | error {e e' : ε} (h : errors e e') : Parallel errors values (.error e) (.error e')

namespace Parallel

variable {errors : ε → ε → Prop} {values values' : α → α → Prop} {x y : Except ε α}

theorem bind {others : β → β → Prop} {f g : α → Except ε β} (h : Parallel errors values x y)
    (hnext : ∀ v w, values v w → Parallel errors others (f v) (g w)) :
    Parallel errors others (x >>= f) (y >>= g) := by
  cases h with
  | ok h => exact hnext _ _ h
  | error h => exact .error h

theorem mono (h : Parallel errors values x y) (himp : ∀ v w, values v w → values' v w) :
    Parallel errors values' x y := by
  cases h with
  | ok h => exact .ok (himp _ _ h)
  | error h => exact .error h

theorem toOption (h : Parallel errors values x y) :
    (x.toOption = none ∧ y.toOption = none) ∨
      ∃ v w, x.toOption = some v ∧ y.toOption = some w ∧ values v w := by
  cases h with
  | ok h => exact .inr ⟨_, _, rfl, rfl, h⟩
  | error => exact .inl ⟨rfl, rfl⟩

end Parallel

/-- Every result of a map comes from one of the values. -/
theorem exists_of_mapM {f : α → Except ε β} {xs : List α} {ys : List β}
    (h : xs.mapM f = .ok ys) : ∀ y ∈ ys, ∃ x ∈ xs, f x = .ok y := by
  induction xs generalizing ys with
  | nil =>
      rw [List.mapM_nil] at h
      cases h
      exact fun y hy => absurd hy List.not_mem_nil
  | cons x rest ih =>
      rw [List.mapM_cons] at h
      obtain ⟨z, hz, h⟩ := ok_of_bind h
      obtain ⟨zs, hzs, h⟩ := ok_of_bind h
      cases h
      intro y hy
      rcases List.mem_cons.mp hy with rfl | hy
      · exact ⟨x, List.mem_cons_self .., hz⟩
      · obtain ⟨w, hw, hwy⟩ := ih hzs y hy
        exact ⟨w, List.mem_cons_of_mem _ hw, hwy⟩

theorem exists_of_mapM_some {f : α → Option β} {xs : List α} {ys : List β}
    (h : xs.mapM f = some ys) : ∀ y ∈ ys, ∃ x ∈ xs, f x = some y := by
  induction xs generalizing ys with
  | nil =>
      rw [List.mapM_nil] at h
      cases h
      exact nofun
  | cons x rest ih =>
      rw [List.mapM_cons] at h
      obtain ⟨z, hz, h⟩ := Option.bind_eq_some_iff.mp h
      obtain ⟨zs, hzs, h⟩ := Option.bind_eq_some_iff.mp h
      cases h
      refine List.forall_mem_cons.mpr ⟨⟨x, List.mem_cons_self, hz⟩, fun y hy => ?_⟩
      obtain ⟨w, hw, hwy⟩ := ih hzs y hy
      exact ⟨w, List.mem_cons_of_mem _ hw, hwy⟩

/-- If a map gives something then every part of it does. -/
theorem ok_of_mapM {f : α → Except ε β} {xs : List α} {ys : List β} (h : xs.mapM f = .ok ys) :
    ∀ x ∈ xs, ∃ y, f x = .ok y := by
  induction xs generalizing ys with
  | nil => exact nofun
  | cons x rest ih =>
      rw [List.mapM_cons] at h
      obtain ⟨y, hy, h⟩ := ok_of_bind h
      obtain ⟨_, hrest, _⟩ := ok_of_bind h
      exact List.forall_mem_cons.mpr ⟨⟨y, hy⟩, ih hrest⟩

/-- A map depends on what is made of the values in the list. -/
theorem mapM_congr {f g : α → Except ε β} {xs : List α} (h : ∀ x ∈ xs, f x = g x) :
    xs.mapM f = xs.mapM g := by
  induction xs with
  | nil => rfl
  | cons x rest ih =>
      obtain ⟨hx, hrest⟩ := List.forall_mem_cons.mp h
      rw [List.mapM_cons, List.mapM_cons, hx, ih hrest]

/-- Where every part gives something, a map gives all of it. -/
theorem mapM_eq_map {f : α → Except ε β} {g : α → β} {xs : List α}
    (h : ∀ x ∈ xs, f x = .ok (g x)) : xs.mapM f = .ok (xs.map g) := by
  induction xs with
  | nil => rfl
  | cons x rest ih =>
      obtain ⟨hx, hrest⟩ := List.forall_mem_cons.mp h
      rw [List.mapM_cons, hx, ok_bind, ih hrest, ok_bind]
      rfl

/-- A map fails like the first part of it that fails. -/
theorem mapM_eq_error {f : α → Except ε β} {front back : List α} {x : α} {e : ε}
    (hfront : ∀ y ∈ front, ∃ w, f y = .ok w) (hx : f x = .error e) :
    (front ++ x :: back).mapM f = .error e := by
  induction front with
  | nil => rw [List.nil_append, List.mapM_cons, hx, error_bind]
  | cons y rest ih =>
      obtain ⟨⟨w, hw⟩, hrest⟩ := List.forall_mem_cons.mp hfront
      rw [List.cons_append, List.mapM_cons, hw, ok_bind, ih hrest, error_bind]

/-- A change that keeps what it has made of a value keeps what it has made of all values. -/
theorem mapM_settled {f : α → Except ε α} {xs ys : List α}
    (hf : ∀ x y, f x = .ok y → f y = .ok y) (h : xs.mapM f = .ok ys) : ys.mapM f = .ok ys := by
  have hfixed : ∀ y ∈ ys, f y = .ok (id y) := by
    intro y hy
    obtain ⟨x, _, hx⟩ := exists_of_mapM h y hy
    exact hf x y hx
  rw [mapM_eq_map hfixed, List.map_id]

/-- Steps that commute in pairs, wherever they are taken, can be taken in any order. -/
theorem foldlM_perm {σ : Type} {step : σ → α → Option σ} (inv : σ → Prop) (apart : α → α → Prop)
    (hsymm : ∀ {x y}, apart x y → apart y x)
    (hstep : ∀ {s x t}, inv s → step s x = some t → inv t)
    (hcomm : ∀ {s x y}, inv s → apart x y →
      (step s x >>= (step · y)) = (step s y >>= (step · x)))
    {xs ys : List α} (hperm : xs.Perm ys) (happart : xs.Pairwise apart) {s : σ} (hs : inv s) :
    xs.foldlM step s = ys.foldlM step s := by
  induction hperm generalizing s with
  | nil => rfl
  | cons x _ ih =>
      rw [List.foldlM_cons, List.foldlM_cons]
      cases hx : step s x with
      | none => rfl
      | some t => exact ih (List.pairwise_cons.mp happart).2 (hstep hs hx)
  | swap x y rest =>
      have hyx := List.rel_of_pairwise_cons happart List.mem_cons_self
      simp only [List.foldlM_cons, ← bind_assoc, hcomm hs hyx]
  | trans hperm _ ih ih' =>
      exact (ih happart hs).trans (ih' ((hperm.pairwise_iff hsymm).mp happart) hs)

end Scim
