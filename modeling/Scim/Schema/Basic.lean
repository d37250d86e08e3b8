import Scim.Schema.Attribute
import Scim.Text.Blank

/-!
# Schemas

A schema has an identifier, a name and a tree of attributes below a root without a name.  It is
put together in three steps.

* The attributes that every resource has, `id`, `externalId`, `schemas` and `meta`, are appended
  unless an attribute of that name is declared.
* The declarations are checked, depth first.  A name is not empty, has no dot and occurs once
  among its siblings whatever its case.  Complex attributes have sub-attributes and no others do.
* Every attribute is placed, and an *index* takes each dotted path in small letters to the chain
  of positions that leads to its attribute.

A path that starts with the identifier of the schema and a colon is looked up without them.
-/

namespace Scim

/-- What is wrong with the declarations of a schema. -/
inductive Schema.Fault where
  | emptyId
  | emptyName
  | dottedName (name : String)
  | duplicateName (name : String)
  | complexWithoutSubs (name : String)
  | simpleWithSubs (type : Attribute.ValueType) (name : String)
  deriving DecidableEq, Repr

/-- Why a schema cannot be loaded. -/
inductive Schema.Error where
  /-- The file cannot be read. -/
  | unreadable (path cause : String)
  /-- The text does not describe a schema. -/
  | malformed
  /-- The declarations break a rule. -/
  | invalid (schema : String) (fault : Schema.Fault)
  deriving DecidableEq, Repr

/-- A lower-cased dotted path and the chain of positions that leads to its attribute. -/
abbrev Schema.Index := List (String × List Nat)

/-- A schema of resources. -/
structure Schema where
  /-- The identifier. -/
  id : String
  /-- The short name. -/
  name : String
  /-- What the schema is for. -/
  description : Option String
  /-- The attribute whose sub-attributes are those at the top of a resource. -/
  root : Attribute
  /-- The chains of all attributes. -/
  index : Schema.Index

namespace Schema

/-- The text of a fault. -/
def Fault.message : Fault → String
  | emptyId => "schema id must not be empty"
  | emptyName => "attribute name must not be empty"
  | dottedName name => s!"attribute name '{name}' must not contain '.'"
  | duplicateName name => s!"duplicate attribute '{name}'"
  | complexWithoutSubs name => s!"complex attribute '{name}' has no sub-attributes"
  | simpleWithSubs type name =>
      s!"{type.word} attribute '{name}' cannot have sub-attributes"

/-- The text of an error. -/
def Error.message : Error → String
  | unreadable path cause => s!"Failed to read schema file '{path}': {cause}"
  | malformed => "Failed to parse schema"
  | invalid schema fault => s!"Invalid schema '{schema}': {fault.message}"

/-! ## Attributes of every resource -/

/-- The attributes that describe where a resource comes from. -/
def metaAttributes : List Attribute :=
  [{ name := "resourceType", caseExact := true, mutability := .readOnly },
    { name := "created", type := .dateTime, mutability := .readOnly },
    { name := "lastModified", type := .dateTime, mutability := .readOnly },
    { name := "location", type := .reference, caseExact := true, mutability := .readOnly },
    { name := "version", caseExact := true, mutability := .readOnly }]

/-- The attributes that every resource has. -/
def commonAttributes : List Attribute :=
  [{ name := "id", caseExact := true, mutability := .readOnly },
    { name := "externalId", caseExact := true },
    { name := "schemas", type := .reference, multiValued := true, required := true,
      caseExact := true },
    { name := "meta", type := .complex, mutability := .readOnly,
      subAttributes := metaAttributes }]

/-- The attributes with those of `added` whose names do not occur yet. -/
def withCommon (attributes added : List Attribute) : List Attribute :=
  attributes ++ added.filter fun c => !attributes.any fun a => Text.alike a.name c.name

/-! ## The check of declarations -/

/-- What is wrong with one attribute among its earlier siblings, apart from what is below it. -/
def fault? (earlier : List Attribute) (a : Attribute) : Option Fault :=
  if a.name.isEmpty then some .emptyName
  else if a.name.toList.contains '.' then some (.dottedName a.name)
  else if earlier.any fun e => Text.alike e.name a.name then some (.duplicateName a.name)
  else if a.isComplex && a.subAttributes.isEmpty then some (.complexWithoutSubs a.name)
  else if !a.isComplex && !a.subAttributes.isEmpty then some (.simpleWithSubs a.type a.name)
  else none

mutual

/-- The first fault below an attribute. -/
def faultBelow? : Attribute → Option Fault
  | ⟨_, subs⟩ => faultAmong? [] subs
termination_by structural a => a

/-- The first fault among attributes that follow their earlier siblings. -/
def faultAmong? (earlier : List Attribute) : List Attribute → Option Fault
  | [] => none
  | a :: rest => fault? earlier a <|> faultBelow? a <|> faultAmong? (earlier ++ [a]) rest
termination_by structural as => as

end

/-! ## The index -/

mutual

/-- The index entries below an attribute. -/
def entriesBelow (key : String) (chain : List Nat) : Attribute → Index
  | ⟨_, subs⟩ => entriesFrom key chain 0 subs
termination_by structural a => a

/-- The index entries of siblings from a position on. -/
def entriesFrom (parent : String) (chain : List Nat) (position : Nat) : List Attribute → Index
  | [] => []
  | a :: rest =>
      let key := Attribute.joinPath parent (Text.lowered a.name)
      let here := chain ++ [position]
      (key, here) :: entriesBelow key here a ++ entriesFrom parent chain (position + 1) rest
termination_by structural as => as

end

/-- The attribute that a chain of positions leads to. -/
def follow (a : Attribute) : List Nat → Option Attribute
  | [] => some a
  | position :: rest =>
      match a.subAttributes[position]? with
      | some s => follow s rest
      | none => none

/-! ## Schemas from their parts -/

/-- The root above the attributes at the top of a resource. -/
def rootOf (id : String) (attributes : List Attribute) : Attribute :=
  { name := "", type := .complex
    placement := some { path := "", fullPath := id, indexKey := none }
    subAttributes := Attribute.placeAll id "" attributes }

/-- A schema from declarations that are in order. -/
def assemble (id name : String) (description : Option String) (attributes : List Attribute) :
    Schema :=
  let root := rootOf id attributes
  { id, name, description, root, index := entriesBelow "" [] root }

/-- Builds a schema from the attributes at the top of a resource. -/
def build (id name : String) (description : Option String) (attributes : List Attribute) :
    Except Error Schema :=
  if (Text.trim id.toList).isEmpty then .error (.invalid name .emptyId)
  else
    let attributes := withCommon attributes commonAttributes
    match faultAmong? [] attributes with
    | some fault => .error (.invalid id fault)
    | none => .ok (assemble id name description attributes)

/-! ## Look-up -/

/-- The attributes at the top of a resource. -/
def attributes (schema : Schema) : List Attribute := schema.root.subAttributes

/-- A path without the identifier of the schema in front of it. -/
def unqualified (schema : Schema) (path : String) : String :=
  let n := schema.id.length
  match path.toList.drop n with
  | ':' :: c :: rest =>
      if Text.alike (String.ofList (path.toList.take n)) schema.id then String.ofList (c :: rest)
      else path
  | _ => path

/-- The attribute of a dotted path in any case. -/
def attribute? (schema : Schema) (path : String) : Option Attribute :=
  match schema.index.lookup (Text.lowered (schema.unqualified path)) with
  | some chain => follow schema.root chain
  | none => none

/-- Whether a word names the schema by its identifier or its name. -/
def isNamed (schema : Schema) (word : String) : Bool :=
  Text.alike schema.id word || Text.alike schema.name word

end Schema

end Scim
