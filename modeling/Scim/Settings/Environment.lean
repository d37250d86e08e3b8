/-!
# References to the environment

A text may refer to a variable of the environment by its name between `${` and `}`.  Expanding the
text puts the value in the place of the reference.  Names are not empty and hold any characters but
a closing brace.  References are found from left to right, and values are not expanded again.

A reference that starts after a `#` on its line is left alone.  Line ends become single line
feeds.
-/

namespace Scim.Settings.Environment

/-- The name of a reference whose opening has been passed, and the characters after it. -/
def reference? (s : List Char) : Option (String × List Char) :=
  let name := s.takeWhile (· != '\x7d')
  match s.dropWhile (· != '\x7d') with
  | [] => none
  | _ :: rest => if name.isEmpty then none else some (String.ofList name, rest)

theorem reference?_length {s : List Char} {name : String} {rest : List Char}
    (h : reference? s = some (name, rest)) : rest.length < s.length := by
  have shorter := (List.dropWhile_sublist (· != '\x7d') (l := s)).length_le
  unfold reference? at h
  dsimp only at h
  split at h
  next => simp at h
  next heq =>
    rw [heq] at shorter
    split at h
    next => simp at h
    next =>
      simp only [Option.some.injEq, Prod.mk.injEq] at h
      obtain ⟨-, rfl⟩ := h
      rw [List.length_cons] at shorter
      omega

/-- Expands the references of a line. -/
def expandLine (valueOf : String → Option String) : List Char → Except String (List Char)
  | [] => .ok []
  | '$' :: '\x7b' :: s =>
      match _h : reference? s with
      | none => do
          let rest ← expandLine valueOf ('\x7b' :: s)
          .ok ('$' :: rest)
      | some (name, rest) =>
          match valueOf name with
          | none => .error name
          | some value =>
              if name.toList.contains '#' then .ok (value.toList ++ rest)
              else do
                let rest ← expandLine valueOf rest
                .ok (value.toList ++ rest)
  | c :: s =>
      if c = '#' then .ok (c :: s)
      else do
        let rest ← expandLine valueOf s
        .ok (c :: rest)
termination_by s => s.length
decreasing_by
  · simp
  · have shorter := reference?_length _h
    simp only [List.length_cons]
    omega
  · simp

/-- The lines of a text, each without its line end. -/
def linesFrom (line : List Char) : List Char → List (List Char)
  | [] => if line.isEmpty then [] else [line.reverse]
  | '\n' :: rest =>
      let content := match line with
        | '\r' :: line => line
        | line => line
      content.reverse :: linesFrom [] rest
  | c :: rest => linesFrom (c :: line) rest

/-- Expands the references of a text.  The error is the name of a variable that is not set. -/
def expand (valueOf : String → Option String) (text : List Char) :
    Except String (List Char) := do
  let lines ← (linesFrom [] text).mapM (expandLine valueOf)
  let joined := List.intercalate ['\n'] lines
  .ok (if text.getLast? = some '\n' then joined ++ ['\n'] else joined)

/-- The names of the references that expanding a line looks up. -/
def namesInLine : List Char → List String
  | [] => []
  | '$' :: '\x7b' :: s =>
      match _h : reference? s with
      | none => namesInLine ('\x7b' :: s)
      | some (name, rest) =>
          if name.toList.contains '#' then [name] else name :: namesInLine rest
  | c :: s => if c = '#' then [] else namesInLine s
termination_by s => s.length
decreasing_by
  · simp
  · have shorter := reference?_length _h
    simp only [List.length_cons]
    omega
  · simp

/-- The names of the references that expanding a text looks up. -/
def names (text : List Char) : List String := (linesFrom [] text).flatMap namesInLine

end Scim.Settings.Environment
