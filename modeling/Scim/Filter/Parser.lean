import Scim.Filter.Error
import Scim.Filter.Scanner
import Scim.Filter.Tree

/-!
# Parsing filters

Tokens become a tree in three steps.

* *Splicing* replaces a path with a filter in brackets by that filter in parentheses, where every
  path has the outer path in front of it: `emails[type pr]` becomes `( emails.type pr )`.
* The *stack machine* reads the flat tokens from left to right.  Operands go to the output.  An
  operator waits on a stack of its own until one that binds no tighter, a closing parenthesis or
  the end takes it from there; it then joins the newest operands of the output.
* The *check* looks at the finished tree.  A relational operator needs a path on its left and a
  constant on its right, a logical operator needs operators below it.

The machine only counts operands, it does not see on which side of an operator they stood.  A
tree higher than `maxDepth` is refused when it is joined, so everything that walks over trees has
a bound.
-/

namespace Scim.Filter

/-- The greatest height of a tree. -/
def maxDepth : Nat := 512

/-- The greatest length of a filter text in bytes, unless another one is given. -/
def defaultMaxLength : Nat := 4096

/-! ## Splicing -/

/-- Puts a path in front of one bracketed token. -/
def spliceInner (outer : String) (t : Token) : Except Error Token :=
  match t.kind with
  | .path => .ok (.path (outer ++ "." ++ t.text))
  | .nestedPath => .error (.nestingTooDeep 0)
  | _ => .ok t

/-- The flat form of one token. -/
def spliceToken (t : Token) : Except Error (List Token) :=
  if t.kind = .nestedPath then
    match t.detail with
    | .nested tokens => do
        let inner ← tokens.mapM (spliceInner t.text)
        .ok (.parenthesis true :: inner ++ [.parenthesis false])
    | _ => .error (.danglingFilter 0)
  else .ok [t]

/-- The flat form of a list of tokens. -/
def splice : List Token → Except Error (List Token)
  | [] => .ok []
  | t :: rest => do
      let front ← spliceToken t
      let back ← splice rest
      .ok (front ++ back)

/-! ## The stack machine -/

/-- The two stacks, newest entries first. -/
structure Machine where
  /-- The trees built so far. -/
  output : List Tree := []
  /-- The operators and opening parentheses that wait. -/
  waiting : List Token := []

namespace Machine

/-- Puts a joined tree on the output, unless it is too high. -/
def push (tree : Tree) (output : List Tree) : Except Error (List Tree) :=
  if maxDepth < tree.height then .error (.tooDeep maxDepth) else .ok (tree :: output)

/-- Joins the newest operands under an operator. -/
def reduce (t : Token) (output : List Tree) : Except Error (List Tree) :=
  match t.operator? with
  | none => .error .mismatchedParenthesis
  | some op =>
      match op.arity, output with
      | 1, operand :: rest => push (.node t operand .nil) rest
      | 2, right :: left :: rest => push (.node t left right) rest
      | 1, _ => .error (.insufficientArguments t.text)
      | 2, _ => .error (.insufficientArguments t.text)
      | n, _ => .error (.unsupportedArity t.text n)

/-- Takes the waiting operators that come before an incoming one. -/
def yield (incoming : Operator) : List Token → List Tree → Except Error Machine
  | [], output => .ok ⟨output, []⟩
  | top :: waiting, output =>
      match top.operator? with
      | none => .ok ⟨output, top :: waiting⟩
      | some stacked =>
          if incoming.yieldsTo stacked then do
            let output ← reduce top output
            yield incoming waiting output
          else .ok ⟨output, top :: waiting⟩

/-- Takes the waiting operators down to an opening parenthesis. -/
def close : List Token → List Tree → Except Error Machine
  | [], _ => .error .mismatchedParenthesis
  | top :: waiting, output =>
      if top.isOpen then .ok ⟨output, waiting⟩
      else do
        let output ← reduce top output
        close waiting output

/-- Takes all waiting operators. -/
def drain : List Token → List Tree → Except Error (List Tree)
  | [], output => .ok output
  | top :: waiting, output =>
      if top.kind = .parenthesis then .error .mismatchedParenthesis
      else do
        let output ← reduce top output
        drain waiting output

/-- Reads one token. -/
def step (m : Machine) (t : Token) : Except Error Machine :=
  match t.kind with
  | .path | .constant => .ok { m with output := .leaf t :: m.output }
  | .relational | .logical =>
      match t.operator? with
      | none =>
          .error (.invalidOperand t.text "operator token without operator metadata")
      | some incoming => do
          let m ← yield incoming m.waiting m.output
          .ok { m with waiting := t :: m.waiting }
  | .parenthesis =>
      if t.isOpen then .ok { m with waiting := t :: m.waiting } else close m.waiting m.output
  | .nestedPath => .error (.nestingTooDeep 0)

/-- Reads tokens from left to right. -/
def run (m : Machine) : List Token → Except Error Machine
  | [] => .ok m
  | t :: rest => do
      let next ← m.step t
      next.run rest

/-- The one tree that is left at the end. -/
def finish (m : Machine) : Except Error Tree := do
  match ← drain m.waiting m.output with
  | [] => .error .empty
  | [root] => .ok root
  | output => .error (.excessOperands output.length)

end Machine

/-! ## The check of operands -/

namespace Tree

/-- Refuses a child that is not a filter. -/
def checkFilter (op : Operator) (child : Tree) (check : Except Error Unit) : Except Error Unit :=
  if child.isNil then .ok ()
  else if child.operator?.isNone then .error (.invalidOperand op.keyword child.display)
  else check

/-- Refuses an operand of another kind. -/
def checkKind (op : Operator) (kind : Token.Kind) (child : Tree) : Except Error Unit :=
  match child.kind? with
  | none => .error (.insufficientArguments op.keyword)
  | some k => if k = kind then .ok () else .error (.invalidOperand op.keyword child.display)

/-- Refuses operands of the wrong kind anywhere in the tree. -/
def checkOperands : Tree → Except Error Unit
  | nil => .ok ()
  | node t l r =>
      match t.operator? with
      | none =>
          if (t.kind = .path ∨ t.kind = .constant) ∧ l.isNil ∧ r.isNil then
            .error (.invalidOperand "(none)" t.text)
          else .ok ()
      | some op =>
          if op.isLogical then do
            checkFilter op l l.checkOperands
            checkFilter op r r.checkOperands
          else do
            checkKind op .path l
            if op = .pr then .ok () else checkKind op .constant r

end Tree

/-! ## Parsing -/

/-- The tree of a list of tokens. -/
def parse (tokens : List Token) : Except Error Tree := do
  let flat ← splice tokens
  let root ← (← Machine.run {} flat).finish
  root.checkOperands
  .ok root

/-- The tree of a filter text of at most `maxLength` bytes. -/
def read (maxLength : Nat) (text : String) : Except Error Tree := do
  if maxLength < text.utf8ByteSize then .error (.tooLong text.utf8ByteSize maxLength)
  else parse (← tokenize text)

end Scim.Filter
