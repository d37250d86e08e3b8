import Scim.Json.Basic
import Scim.Text.Folding

/-!
# Members of an object

Members are kept in increasing order of their keys, by code points, which is also the order of
the UTF-8 bytes.  `Members.put` puts a member into its place and replaces one of the same key.

Attribute names are looked up without regard to ASCII case.  A key that is spelled exactly like
the name wins; otherwise the first key in order that is alike does.  Reading and writing go
through the same choice, `Members.key?`, so a value is written where it would be read.
-/

namespace Scim.Members

/-- The value of the member with exactly this key. -/
def get? (members : Members) (key : String) : Option Json := members.lookup key

/-- Whether some member has exactly this key. -/
def hasKey (members : Members) (key : String) : Bool := members.any (·.1 == key)

/-- The members with the value put at the key, in order. -/
def put (key : String) (value : Json) : Members → Members
  | [] => [(key, value)]
  | (k, v) :: rest =>
      if k = key then (key, value) :: rest
      else if key < k then (key, value) :: (k, v) :: rest
      else (k, v) :: put key value rest

/-- The members without those of the key. -/
def remove (key : String) (members : Members) : Members := members.filter (·.1 != key)

/-- The members of a list of pairs in order.  Of two pairs with one key the later one counts. -/
def ofPairs (pairs : List (String × Json)) : Members :=
  pairs.foldl (fun members p => put p.1 p.2 members) []

/-! ## Names -/

/-- The key that a name stands for: the name itself if it is a key, else the first key alike. -/
def key? (members : Members) (name : String) : Option String :=
  if members.hasKey name then some name
  else (members.find? fun m => Text.alike m.1 name).map (·.1)

/-- The key that a name stands for, or the name as a new key. -/
def slot (members : Members) (name : String) : String := (members.key? name).getD name

/-- The value of the member that a name stands for. -/
def named? (members : Members) (name : String) : Option Json :=
  (members.key? name).bind members.get?

/-- The value of the member that a name stands for, `null` if there is none. -/
def valueOf (members : Members) (name : String) : Json := (members.named? name).getD .null

/-! ## Reading what was written -/

@[simp] theorem get?_nil (key : String) : get? [] key = none := rfl

theorem get?_cons (key k : String) (v : Json) (rest : Members) :
    get? ((k, v) :: rest) key = if key = k then some v else get? rest key := by
  rw [get?, List.lookup_cons]
  by_cases h : key = k
  · rw [beq_iff_eq.mpr h, if_pos h]
  · rw [beq_eq_false_iff_ne.mpr h, if_neg h]
    rfl

@[simp] theorem get?_put_self (key : String) (value : Json) (members : Members) :
    (put key value members).get? key = some value := by
  fun_induction put key value members with
  | case1 => simp [get?_cons]
  | case2 => simp [get?_cons]
  | case3 => simp [get?_cons]
  | case4 k v rest hne _ ih => simp [get?_cons, Ne.symm hne, ih]

theorem get?_put_of_ne {key other : String} (h : other ≠ key) (value : Json)
    (members : Members) : (put key value members).get? other = members.get? other := by
  fun_induction put key value members with
  | case1 => simp [get?_cons, h]
  | case2 => simp [get?_cons, h]
  | case3 => simp [get?_cons, h]
  | case4 k v rest _ _ ih => simp [get?_cons, ih]

@[simp] theorem get?_remove_self (key : String) (members : Members) :
    (remove key members).get? key = none := by
  induction members with
  | nil => rfl
  | cons m rest ih =>
    obtain ⟨k, v⟩ := m
    by_cases h : k = key
    · simpa [remove, h] using ih
    · simpa [remove, h, get?_cons, Ne.symm h] using ih

theorem get?_remove_of_ne {key other : String} (h : other ≠ key) (members : Members) :
    (remove key members).get? other = members.get? other := by
  induction members with
  | nil => rfl
  | cons m rest ih =>
    obtain ⟨k, v⟩ := m
    by_cases h' : k = key
    · subst h'
      simpa [remove, get?_cons, h] using ih
    · by_cases h'' : other = k
      · simp [remove, h', get?_cons, h'']
      · simpa [remove, h', get?_cons, h''] using ih

end Scim.Members
