import Scim.Proofs.Filter.Assembly
import Scim.Proofs.Filter.Precedence

/-!
# Tokens in place

The stack machine counts operands and does not see on which side of an operator they stood, so it
takes texts that the grammar does not have.  What it misses is told here.

Tokens are *in place* if each of them may stand behind the one before it: an operator behind a path,
a constant behind a comparison, `and`, `or` or a closing parenthesis behind a filter, the start of
a filter elsewhere (`Place.next`).  The tokens of a text have a derivation exactly if they are in
place (`inPlace_iff`), since scanning has already matched the parentheses.

Of every text that is read, in place or not, the tree is that of a filter of the grammar with the
same operands in the same order and with the same operators (`derives_iff_inPlace`).
-/

namespace Scim.Filter

/-! ## Places -/

/-- What a filter may go on with. -/
inductive Place where
  /-- With the start of a unit. -/
  | start
  /-- With an operator behind a path. -/
  | relation
  /-- With a constant behind an operator. -/
  | value
  /-- With what may follow a unit, or not at all. -/
  | stop
  deriving DecidableEq, Repr

/-- The place behind a token, if the token may stand at a place.  `bracket` tells whether the tokens
in a bracket are in place. -/
def Place.next (bracket : List Token → Bool) (place : Place) (t : Token) : Option Place :=
  match place, t.kind with
  | .start, .path => some .relation
  | .start, .nestedPath => if t.nested?.any bracket then some .stop else none
  | .start, .logical => if t.operator? = some .not then some .start else none
  | .start, .parenthesis => if t.isOpen then some .start else none
  | .relation, .relational => some (if t.operator? = some .pr then .stop else .value)
  | .value, .constant => some .stop
  | .stop, .logical => if t.operator? = some .not then none else some .start
  | .stop, .parenthesis => if t.isOpen then none else some .stop
  | _, _ => none

/-- Whether tokens may stand from a place on. -/
def placed (bracket : List Token → Bool) (place : Place) : List Token → Bool
  | [] => place = .stop
  | t :: rest =>
      match place.next bracket t with
      | some next => placed bracket next rest
      | none => false

/-- The tokens of a filter are in place, and so are those in its brackets. -/
def InPlace (ts : List Token) : Prop := placed (placed (fun _ => false) .start) .start ts = true

instance (ts : List Token) : Decidable (InPlace ts) := inferInstanceAs (Decidable (_ = true))

variable {bracket : List Token → Bool} {b : Bool} {level : Level} {place : Place} {t : Token}
  {ts us rest : List Token} {x y : Tree} {d n : Nat}

theorem placed_cons {next : Place} (h : place.next bracket t = some next) :
    placed bracket place (t :: rest) = placed bracket next rest := by
  rw [placed, h]

/-- A token that is in place leads to the next place. -/
theorem exists_next (h : placed bracket place (t :: rest) = true) :
    ∃ next, place.next bracket t = some next ∧ placed bracket next rest = true := by
  rw [placed] at h
  split at h
  case h_1 next hnext => exact ⟨next, hnext, h⟩
  case h_2 => cases h

theorem next_not (ht : t.IsOperator .not) : Place.start.next bracket t = some .start := by
  simp [Place.next, ht.kind, ht.operator, Operator.isLogical]

theorem next_logical {op : Operator} (ht : t.IsOperator op) (hop : op.isLogical = true)
    (hnot : op ≠ .not) : Place.stop.next bracket t = some .start := by
  simp [Place.next, ht.kind, ht.operator, hop, hnot]

/-- What may stand at the start of a unit. -/
theorem next_start_cases {next : Place} (h : Place.start.next bracket t = some next) :
    t.kind = .path ∧ next = .relation ∨
      t.kind = .nestedPath ∧ (∃ inner, t.nested? = some inner ∧ bracket inner = true) ∧
        next = .stop ∨
      t.kind = .logical ∧ t.operator? = some .not ∧ next = .start ∨
      t.kind = .parenthesis ∧ t.isOpen = true ∧ next = .start := by
  unfold Place.next at h
  cases hkind : t.kind with
  | path =>
      rw [hkind] at h
      cases h
      exact .inl ⟨rfl, rfl⟩
  | nestedPath =>
      simp only [hkind, Option.ite_none_right_eq_some, Option.some.injEq] at h
      obtain ⟨hbracket, rfl⟩ := h
      exact .inr (.inl ⟨rfl, Option.any_eq_true .. |>.mp hbracket, rfl⟩)
  | logical =>
      simp only [hkind, Option.ite_none_right_eq_some, Option.some.injEq] at h
      exact .inr (.inr (.inl ⟨rfl, h.1, h.2.symm⟩))
  | parenthesis =>
      simp only [hkind, Option.ite_none_right_eq_some, Option.some.injEq] at h
      exact .inr (.inr (.inr ⟨rfl, h.1, h.2.symm⟩))
  | relational | constant =>
      rw [hkind] at h
      cases h

/-- What may stand behind a unit. -/
theorem next_stop_cases {next : Place} (h : Place.stop.next bracket t = some next) :
    t.kind = .logical ∧ t.operator? ≠ some .not ∧ next = .start ∨
      t.kind = .parenthesis ∧ t.isOpen = false ∧ next = .stop := by
  unfold Place.next at h
  cases hkind : t.kind with
  | logical =>
      simp only [hkind, Option.ite_none_left_eq_some, Option.some.injEq] at h
      exact .inl ⟨rfl, h.1, h.2.symm⟩
  | parenthesis =>
      simp only [hkind, Option.ite_none_left_eq_some, Option.some.injEq] at h
      exact .inr ⟨rfl, Bool.eq_false_iff.mpr h.1, h.2.symm⟩
  | path | nestedPath | relational | constant =>
      rw [hkind] at h
      cases h

theorem next_relation {next : Place} (h : Place.relation.next bracket t = some next) :
    t.kind = .relational ∧ next = if t.operator? = some .pr then .stop else .value := by
  unfold Place.next at h
  cases hkind : t.kind with
  | relational =>
      rw [hkind] at h
      exact ⟨rfl, (Option.some.inj h).symm⟩
  | _ =>
      rw [hkind] at h
      cases h

theorem next_value {next : Place} (h : Place.value.next bracket t = some next) :
    t.kind = .constant ∧ next = .stop := by
  unfold Place.next at h
  cases hkind : t.kind with
  | constant =>
      rw [hkind] at h
      exact ⟨rfl, (Option.some.inj h).symm⟩
  | _ =>
      rw [hkind] at h
      cases h

/-! ## Derivations are in place -/

/-- Behind the tokens of a derivation stands what may follow a unit. -/
theorem placed_of_derives (h : Derives level b ts x)
    (hbracket : ∀ inner y, b = true → Derives .expression false inner y → bracket inner = true) :
    placed bracket .start (ts ++ rest) = placed bracket .stop rest := by
  induction h generalizing rest with
  | @comparison _ p t c op hp ht hop hpr hc =>
      have hkind : t.kind = .relational := by
        rw [ht.kind, hop]
        rfl
      simp [placed, Place.next, hp, hkind, ht.operator, hpr, hc]
  | presence hp ht => simp [placed, Place.next, hp, ht.kind, ht.operator, Operator.isLogical]
  | negation ht _ ih => rw [List.cons_append, placed_cons (next_not ht), ih hbracket]
  | group _ ih =>
      rw [List.cons_append, List.append_assoc]
      show placed bracket .start (_ ++ _) = _
      rw [ih hbracket]
      rfl
  | @bracket t inner _ hk hd hx _ =>
      have hnext : Place.start.next bracket t = some .stop := by
        simp [Place.next, hk, Token.nested?, hd, hbracket _ _ rfl hx]
      rw [List.cons_append, placed_cons hnext, List.nil_append]
  | ofUnit _ ih | ofConjunction _ ih => exact ih hbracket
  | and _ ht _ ihx ihy | or _ ht _ ihx ihy =>
      rw [List.append_assoc, ihx hbracket, List.cons_append,
        placed_cons (next_logical ht rfl (by decide)), ihy hbracket]

/-- The tokens of a derivation are in place. -/
theorem placed_of_whole (h : Derives level b ts x)
    (hbracket : ∀ inner y, b = true → Derives .expression false inner y → bracket inner = true) :
    placed bracket .start ts = true := by
  have hplaced : placed bracket .start (ts ++ []) = placed bracket .stop [] :=
    placed_of_derives h hbracket
  rw [List.append_nil] at hplaced
  exact hplaced

/-! ## Tokens in place have derivations -/

theorem Token.IsOperator.isLogical_eq {op : Operator} (h : t.IsOperator op) :
    op.isLogical = decide (t.kind = .logical) := by
  rw [h.kind]
  cases op.isLogical <;> rfl

theorem Token.detail_of_nested? {inner : List Token} (h : t.nested? = some inner) :
    t.detail = .nested inner := by
  unfold nested? at h
  split at h
  case h_1 hdetail =>
      cases h
      exact hdetail
  case h_2 => cases h

/-- A token as scanning makes it.  If it has a bracket with tokens that pass, they have a
derivation, and brackets are allowed. -/
structure Token.Fits (b : Bool) (bracket : List Token → Bool) (t : Token) : Prop where
  scanned : t.Scanned
  nested : ∀ inner, t.nested? = some inner → bracket inner = true →
    b = true ∧ ∃ y, Derives .expression false inner y

/-- The tokens end in a conjunction, which may stand behind an expression and `or`. -/
inductive EndsInConjunction (b : Bool) : List Token → Prop where
  | alone {ts : List Token} {x : Tree} (hx : Derives .conjunction b ts x) : EndsInConjunction b ts
  | behind {ts us : List Token} {t : Token} {x y : Tree} (hx : Derives .expression b ts x)
      (ht : t.IsOperator .or) (hy : Derives .conjunction b us y) :
      EndsInConjunction b (ts ++ t :: us)

namespace EndsInConjunction

theorem derives (h : EndsInConjunction b ts) : ∃ x, Derives .expression b ts x := by
  cases h with
  | alone hx => exact ⟨_, .ofConjunction hx⟩
  | behind hx ht hy => exact ⟨_, .or hx ht hy⟩

/-- A unit can be joined to the tokens. -/
theorem join {op : Operator} (h : EndsInConjunction b ts) (ht : t.IsOperator op)
    (hop : op.isLogical = true) (hnot : op ≠ .not) (hy : Derives .unit b us y) :
    EndsInConjunction b (ts ++ t :: us) := by
  cases op with
  | and =>
      cases h with
      | alone hx => exact .alone (.and hx ht hy)
      | behind hx ht' hy' =>
          rw [List.append_assoc, List.cons_append]
          exact .behind hx ht' (.and hy' ht hy)
  | or =>
      obtain ⟨x, hx⟩ := h.derives
      exact .behind hx ht (.ofUnit hy)
  | not => exact absurd rfl hnot
  | _ => cases hop

end EndsInConjunction

/-- The tokens start with a unit, and the rest is in place and closes `d` parentheses. -/
def StartsWithUnit (b : Bool) (bracket : List Token → Bool) (d : Nat) (ts : List Token) : Prop :=
  ∃ us rest x, ts = us ++ rest ∧ Derives .unit b us x ∧ placed bracket .stop rest = true ∧
    openAfter d rest = some 0

/-- The tokens are an expression, up to the parenthesis that closes the innermost of `d`. -/
def StartsWithExpression (b : Bool) (bracket : List Token → Bool) (d : Nat) (ts : List Token) :
    Prop :=
  ∃ us rest x, ts = us ++ rest ∧ Derives .expression b us x ∧
    (d = 0 ∧ rest = [] ∨ ∃ e others, d = e + 1 ∧ rest = .parenthesis false :: others ∧
      placed bracket .stop others = true ∧ openAfter e others = some 0)

/-- Tokens of at most `n` that are in place and close `d` parentheses start with a unit. -/
def UnitsUpTo (b : Bool) (bracket : List Token → Bool) (n : Nat) : Prop :=
  ∀ ts d, ts.length ≤ n → (∀ t ∈ ts, t.Fits b bracket) → placed bracket .start ts = true →
    openAfter d ts = some 0 → StartsWithUnit b bracket d ts

/-- Behind a conjunction, units are joined until a parenthesis closes or the tokens end. -/
theorem startsWithExpression_of_units (hunits : UnitsUpTo b bracket n) (hlength : rest.length ≤ n)
    (hfits : ∀ t ∈ rest, t.Fits b bracket) (h : EndsInConjunction b us)
    (hplaced : placed bracket .stop rest = true) (hopen : openAfter d rest = some 0) :
    StartsWithExpression b bracket d (us ++ rest) := by
  induction hk : rest.length using Nat.strongRecOn generalizing us rest with
  | _ k ih =>
    obtain ⟨x, hx⟩ := h.derives
    cases rest with
    | nil => exact ⟨us, [], x, rfl, hx, .inl ⟨Option.some.inj hopen, rfl⟩⟩
    | cons t rest =>
        obtain ⟨ht, hrest⟩ := List.forall_mem_cons.mp hfits
        obtain ⟨next, hnext, hplaced⟩ := exists_next hplaced
        rcases next_stop_cases hnext with ⟨hkind, hnot, rfl⟩ | ⟨hkind, hclose, rfl⟩
        · obtain ⟨op, hop⟩ :=
            (ht.scanned.toAtom (by simp [hkind])).exists_isOperator (.inr hkind)
          have hne : op ≠ .not := by
            rintro rfl
            exact hnot hop.operator
          rw [openAfter_cons_of_ne (by simp [hkind])] at hopen
          obtain ⟨vs, others, y, rfl, hy, hplaced, hopen⟩ :=
            hunits rest d (Nat.le_of_succ_le hlength) hrest hplaced hopen
          rw [List.length_cons, List.length_append] at hk hlength
          have hlogical : op.isLogical = true := by simp [hop.isLogical_eq, hkind]
          have hnext := ih others.length (by omega) (by omega) (List.forall_mem_append.mp hrest).2
            (h.join hop hlogical hne hy) hplaced hopen rfl
          rwa [List.append_assoc, List.cons_append] at hnext
        · obtain ⟨isOpen, rfl⟩ := (ht.scanned.toAtom (by simp [hkind])).eq_parenthesis hkind
          cases isOpen with
          | true => cases hclose
          | false =>
              cases d with
              | zero => cases hopen
              | succ e => exact ⟨us, _, x, rfl, hx, .inr ⟨e, rest, rfl, rfl, hplaced, hopen⟩⟩

/-- A path has an operator behind it, and a constant behind that unless the operator is `pr`. -/
theorem startsWithUnit_of_path (hpath : t.kind = .path) (hfits : ∀ u ∈ rest, u.Fits b bracket)
    (hplaced : placed bracket .relation rest = true) (hopen : openAfter d rest = some 0) :
    StartsWithUnit b bracket d (t :: rest) := by
  cases rest with
  | nil => cases hplaced
  | cons u rest =>
      obtain ⟨hu, hrest⟩ := List.forall_mem_cons.mp hfits
      obtain ⟨next, hnext, hplaced⟩ := exists_next hplaced
      obtain ⟨hkind, rfl⟩ := next_relation hnext
      rw [openAfter_cons_of_ne (by simp [hkind])] at hopen
      obtain ⟨op, hop⟩ := (hu.scanned.toAtom (by simp [hkind])).exists_isOperator (.inl hkind)
      have hrelational : op.isLogical = false := by simp [hop.isLogical_eq, hkind]
      by_cases hpr : op = .pr
      · subst hpr
        rw [if_pos hop.operator] at hplaced
        exact ⟨[t, u], rest, _, rfl, .presence hpath hop, hplaced, hopen⟩
      · have hoperator : u.operator? ≠ some .pr := by
          rw [hop.operator]
          exact fun h => hpr (Option.some.inj h)
        rw [if_neg hoperator] at hplaced
        cases rest with
        | nil => cases hplaced
        | cons c rest =>
            obtain ⟨next, hnext, hplaced⟩ := exists_next hplaced
            obtain ⟨hconstant, rfl⟩ := next_value hnext
            rw [openAfter_cons_of_ne (by simp [hconstant])] at hopen
            exact ⟨[t, u, c], rest, _, rfl, .comparison hpath hop hrelational hpr hconstant,
              hplaced, hopen⟩

/-- Tokens that are in place start with a unit. -/
theorem unitsUpTo (b : Bool) (bracket : List Token → Bool) (n : Nat) : UnitsUpTo b bracket n := by
  induction n with
  | zero =>
      intro ts d hlength _ hplaced _
      rw [List.eq_nil_of_length_eq_zero (Nat.le_zero.mp hlength)] at hplaced
      cases hplaced
  | succ n ih =>
      intro ts d hlength hfits hplaced hopen
      cases ts with
      | nil => cases hplaced
      | cons t rest =>
          obtain ⟨ht, hrest⟩ := List.forall_mem_cons.mp hfits
          obtain ⟨next, hnext, hplaced⟩ := exists_next hplaced
          have hshort : rest.length ≤ n := Nat.le_of_succ_le_succ hlength
          rcases next_start_cases hnext with ⟨hkind, rfl⟩ | ⟨hkind, ⟨inner, hinner, hpasses⟩, rfl⟩ |
            ⟨hkind, hnot, rfl⟩ | ⟨hkind, hisOpen, rfl⟩
          · rw [openAfter_cons_of_ne (by simp [hkind])] at hopen
            exact startsWithUnit_of_path hkind hrest hplaced hopen
          · -- A bracket is a unit.
            obtain ⟨rfl, y, hy⟩ := ht.nested inner hinner hpasses
            rw [openAfter_cons_of_ne (by simp [hkind])] at hopen
            exact ⟨[t], rest, _, rfl, .bracket hkind (Token.detail_of_nested? hinner) hy, hplaced,
              hopen⟩
          · -- Behind `not` there is another unit.
            rw [openAfter_cons_of_ne (by simp [hkind])] at hopen
            have hoperator : t.IsOperator .not := ⟨hnot, hkind⟩
            obtain ⟨us, others, y, rfl, hy, hplaced, hopen⟩ := ih rest d hshort hrest hplaced hopen
            exact ⟨t :: us, others, _, rfl, .negation hoperator hy, hplaced, hopen⟩
          · -- Behind a parenthesis there is an expression up to the one that closes it.
            obtain ⟨isOpen, rfl⟩ := (ht.scanned.toAtom (by simp [hkind])).eq_parenthesis hkind
            cases isOpen with
            | false => cases hisOpen
            | true =>
                rw [openAfter_open] at hopen
                obtain ⟨us, others, y, rfl, hy, hplaced, hopen⟩ :=
                  ih rest (d + 1) hshort hrest hplaced hopen
                obtain ⟨vs, closing, z, hsplit, hz, ⟨hd, _⟩ | ⟨e, zs, he, rfl, hplaced, hopen⟩⟩ :=
                  startsWithExpression_of_units ih (by simp at hshort; omega)
                    (List.forall_mem_append.mp hrest).2 (.alone (.ofUnit hy)) hplaced hopen
                · cases hd
                · cases he
                  rw [hsplit]
                  exact ⟨.parenthesis true :: (vs ++ [.parenthesis false]), zs, z, by simp,
                    .group hz, hplaced, hopen⟩

/-- Tokens that are in place and whose parentheses match have a derivation. -/
theorem exists_derives_of_placed (hfits : ∀ t ∈ ts, t.Fits b bracket)
    (hplaced : placed bracket .start ts = true) (hopen : openAfter 0 ts = some 0) :
    ∃ x, Derives .expression b ts x := by
  obtain ⟨us, rest, y, rfl, hy, hplaced, hopen⟩ :=
    unitsUpTo b bracket ts.length ts 0 (Nat.le_refl _) hfits hplaced hopen
  obtain ⟨vs, rest', x, hsplit, hx, ⟨_, rfl⟩ | ⟨e, _, he, _⟩⟩ :=
    startsWithExpression_of_units (unitsUpTo b bracket rest.length) (Nat.le_refl _)
      (List.forall_mem_append.mp hfits).2 (.alone (.ofUnit hy)) hplaced hopen
  · rw [hsplit, List.append_nil]
    exact ⟨x, hx⟩
  · cases he

/-- The tokens of a text have a derivation exactly if they are in place. -/
theorem inPlace_iff (hts : ∀ t ∈ ts, t.Scanned) (hopen : openAfter 0 ts = some 0) :
    InPlace ts ↔ ∃ x, Derives .expression true ts x := by
  constructor
  · intro hplaced
    refine exists_derives_of_placed (fun t ht => ⟨hts t ht, fun inner hinner hpasses => ?_⟩)
      hplaced hopen
    cases hts t ht with
    | atom hatom => cases hatom <;> cases hinner
    | bracket _ hatoms hclosed =>
        cases hinner
        refine ⟨rfl, exists_derives_of_placed (fun u hu => ⟨.atom (hatoms u hu), ?_⟩)
          hpasses hclosed⟩
        intro deeper hdeeper
        cases hatoms u hu <;> cases hdeeper
  · rintro ⟨x, hx⟩
    exact placed_of_whole hx fun inner y _ hy => placed_of_whole hy nofun

/-! ## What is read -/

/-- A tree that is parsed from tokens with a derivation is the tree of the derivation. -/
theorem eq_of_parse (hy : Derives .expression b ts y) (h : parse ts = .ok x) : y = x := by
  obtain ⟨flat, hflat, hd⟩ := hy.splice
  obtain ⟨flat', m, hflat', hrun, hdrain, _⟩ := parse_cases h
  rw [hflat] at hflat'
  cases hflat'
  have hfinish : m.finish = .ok x := by
    rw [Machine.finish, hdrain]
    rfl
  have hread := complete_of_flat hd
  rw [Machine.complete, hrun, Machine.unlessTooDeep] at hread
  split at hread
  case isTrue => cases hfinish.symm.trans hread
  case isFalse => exact Except.ok.inj (hread.symm.trans hfinish)

/-- The operands and operators of a tree are those of the tokens that it is parsed from. -/
theorem tokens_of_runs {flat : List Token} (h : Machine.Runs {} flat ⟨[x], []⟩) :
    x.tokens.filter Token.isOperand = flat.filter Token.isOperand ∧
      (x.tokens.filter Token.isOperator).Perm (flat.filter Token.isOperator) := by
  have hoperands := h.operands fun _ ht => absurd ht List.not_mem_nil
  have hoperators := h.operators
  simp [Machine.content] at hoperands hoperators
  exact ⟨hoperands, hoperators⟩

/-- The grammar has a text that is read exactly if its tokens are in place, and then it assigns the
tree that is read.  In place or not, the tree is that of a filter of the grammar, which has the same
operands in the same order and the same operators. -/
theorem derives_iff_inPlace {limit : Nat} {text : String} (h : read limit text = .ok x) :
    ∃ ts flat, tokenize text = .ok ts ∧ splice ts = .ok flat ∧
      (∀ y, Derives .expression true ts y ↔ InPlace ts ∧ y = x) ∧
      ∃ us, Derives .expression false us x ∧
        us.filter Token.isOperand = flat.filter Token.isOperand ∧
        (us.filter Token.isOperator).Perm (flat.filter Token.isOperator) := by
  obtain ⟨ts, hts, hparse⟩ := read_cases h
  obtain ⟨hscanned, hopen⟩ := scanned_of_tokenize hts
  obtain ⟨flat, hflat, hruns, _⟩ := runs_of_parse hparse
  refine ⟨ts, flat, hts, hflat, fun y => ⟨fun hy => ?_, ?_⟩, ?_⟩
  · exact ⟨(inPlace_iff hscanned hopen).mpr ⟨y, hy⟩, eq_of_parse hy hparse⟩
  · rintro ⟨hplaced, rfl⟩
    obtain ⟨z, hz⟩ := (inPlace_iff hscanned hopen).mp hplaced
    rwa [eq_of_parse hz hparse] at hz
  · -- The grammatical filter is the tree written with all its parentheses.
    obtain ⟨hproper, _⟩ := proper_of_parse hscanned hparse
    obtain ⟨hoperands, hoperators⟩ := tokens_of_runs hruns
    obtain ⟨hoperands', hoperators'⟩ := hproper.written_tokens
    exact ⟨x.written, .ofConjunction (.ofUnit hproper.derives), hoperands'.trans hoperands,
      hoperators'.trans hoperators⟩

/-- A filter with a bracket behind `not` is in place. -/
theorem derives_iff_inPlace_primary :
    ∃ ts x, read defaultMaxLength "title pr or not emails[primary eq true]" = .ok x ∧
      tokenize "title pr or not emails[primary eq true]" = .ok ts ∧ InPlace ts ∧
      Derives .expression true ts x := by
  obtain ⟨x, hx⟩ : ∃ x, read defaultMaxLength "title pr or not emails[primary eq true]" = .ok x :=
    ⟨_, rfl⟩
  have htokens : tokenize "title pr or not emails[primary eq true]" =
      .ok [.path "title", .ofOperator "pr" .pr, .ofOperator "or" .or, .ofOperator "not" .not,
        .withFilter "emails" [.path "primary", .ofOperator "eq" .eq,
          ⟨"true", .constant, .constant (.boolean true)⟩]] := rfl
  obtain ⟨ts, flat, hts, _, hiff, _⟩ := derives_iff_inPlace hx
  have hplaced : InPlace ts := by
    cases htokens.symm.trans hts
    decide
  exact ⟨ts, x, hx, hts, hplaced, (hiff x).mpr ⟨hplaced, rfl⟩⟩

/-- A presence test in a bracket takes the path in front of the bracket.  The text is read as
`userName pr`, and the grammar does not have it. -/
theorem read_misplaced :
    ∃ ts x, tokenize "userName emails[pr]" = .ok ts ∧
      read defaultMaxLength "userName emails[pr]" = .ok x ∧ x.display = "userName pr" ∧
      ∀ y, ¬ Derives .expression true ts y := by
  have htokens : tokenize "userName emails[pr]" =
      .ok [.path "userName", .withFilter "emails" [.ofOperator "pr" .pr]] := rfl
  obtain ⟨hscanned, hopen⟩ := scanned_of_tokenize htokens
  have hplaced : ¬ InPlace [.path "userName", .withFilter "emails" [.ofOperator "pr" .pr]] := by
    decide
  exact ⟨_, _, htokens, rfl, rfl, fun y hy => hplaced ((inPlace_iff hscanned hopen).mpr ⟨y, hy⟩)⟩

end Scim.Filter
