import Scim.Json.Members

/-!
# Attributes

An attribute describes one member of a resource: its type, whether it holds one value or many,
who may change it, and for a complex attribute the attributes of its value.

An attribute becomes part of a schema when it is *placed*.  It then knows its dotted path from
the top of a resource, that path behind the identifier of the schema, and for a multi-valued
complex attribute the sub-attribute that tells its elements apart.  That key is the declared one,
else the sub-attribute `value`, else `type`.

The elements of a placed multi-valued attribute are described by its single-valued twin, which
differs in nothing else.  An attribute that was never placed describes its elements itself.
-/

namespace Scim

/-- The type of a value. -/
inductive Attribute.ValueType where
  | string
  | boolean
  | decimal
  | integer
  | dateTime
  | reference
  | complex
  deriving DecidableEq, Repr

/-- Who may change a value, and when. -/
inductive Attribute.Mutability where
  | readOnly
  | readWrite
  | immutable
  | writeOnly
  deriving DecidableEq, Repr

/-- Where an attribute stands in its schema. -/
structure Attribute.Placement where
  /-- The dotted path from the top of a resource. -/
  path : String
  /-- The path behind the identifier of the schema. -/
  fullPath : String
  /-- The sub-attribute that tells elements apart. -/
  indexKey : Option String
  deriving DecidableEq, Repr

/-- What an attribute says apart from its sub-attributes. -/
structure Attribute.Traits where
  /-- The name, which is also the key in a resource. -/
  name : String
  /-- The type of a single value. -/
  type : Attribute.ValueType := .string
  /-- Whether the attribute holds an array of values. -/
  multiValued : Bool := false
  /-- What the attribute is for. -/
  description : Option String := none
  /-- Whether a client has to supply a value. -/
  required : Bool := false
  /-- Whether text is compared with regard to case. -/
  caseExact : Bool := false
  /-- Who may change the value. -/
  mutability : Attribute.Mutability := .readWrite
  /-- The declared key that tells elements apart. -/
  arrayIndexKey : Option String := none
  /-- Where the attribute stands, once it is part of a schema. -/
  placement : Option Attribute.Placement := none
  deriving DecidableEq, Repr

/-- The description of one member of a resource. -/
structure Attribute extends Attribute.Traits where
  /-- The attributes of a complex value. -/
  subAttributes : List Attribute := []

instance : Inhabited Attribute := ⟨{ name := "" }⟩

namespace Attribute

/-- The word for a type. -/
def ValueType.word : ValueType → String
  | string => "string"
  | boolean => "boolean"
  | decimal => "decimal"
  | integer => "integer"
  | dateTime => "dateTime"
  | reference => "reference"
  | complex => "complex"

/-- The word for a mutability. -/
def Mutability.word : Mutability → String
  | readOnly => "readOnly"
  | readWrite => "readWrite"
  | immutable => "immutable"
  | writeOnly => "writeOnly"

/-- Whether the values are objects. -/
def isComplex (a : Attribute) : Bool := a.type = .complex

/-- The sub-attribute of a name in any case. -/
def sub? (a : Attribute) (name : String) : Option Attribute :=
  a.subAttributes.find? fun s => Text.alike s.name name

/-- The twin that describes a single element. -/
def singleValued (a : Attribute) : Attribute := { a with multiValued := false }

/-- The description of the elements of the attribute. -/
def element (a : Attribute) : Attribute :=
  if a.multiValued && a.placement.isSome then a.singleValued else a

/-- The dotted path of a placed attribute. -/
def path (a : Attribute) : String := (a.placement.map (·.path)).getD ""

/-- The path of a placed attribute behind the identifier of its schema. -/
def fullPath (a : Attribute) : String := (a.placement.map (·.fullPath)).getD ""

/-- The sub-attribute that tells the elements of a placed attribute apart. -/
def indexKey (a : Attribute) : Option String := a.placement.bind (·.indexKey)

/-- The value of a new member: an empty container, or `null` for a simple attribute. -/
def zeroValue (a : Attribute) : Json :=
  if a.multiValued then .array [] else if a.isComplex then .object [] else .null

/-! ## Placing -/

/-- The key that tells the elements of an attribute apart. -/
def chooseKey (traits : Traits) (subs : List Attribute) : Option String :=
  if traits.multiValued && traits.type = .complex then
    traits.arrayIndexKey <|>
      (subs.find? fun s => Text.alike s.name "value").map (·.name) <|>
      (subs.find? fun s => Text.alike s.name "type").map (·.name)
  else none

/-- A name behind the path of its parent, which is empty at the top. -/
def joinPath (parent name : String) : String :=
  if parent.isEmpty then name else parent ++ "." ++ name

mutual

/-- Gives an attribute and its sub-attributes their places below a path. -/
def place (schemaId parent : String) : Attribute → Attribute
  | ⟨traits, subs⟩ =>
      let path := joinPath parent traits.name
      let placement : Placement :=
        { path, fullPath := schemaId ++ ":" ++ path, indexKey := chooseKey traits subs }
      ⟨{ traits with placement := some placement }, placeAll schemaId path subs⟩
termination_by structural a => a

/-- Gives every attribute of a list its place below a path. -/
def placeAll (schemaId parent : String) : List Attribute → List Attribute
  | [] => []
  | a :: rest => place schemaId parent a :: placeAll schemaId parent rest
termination_by structural as => as

end

end Attribute

end Scim
