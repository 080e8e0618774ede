import Bracketing.Config.Yaml.Cell
import Bracketing.Config.Yaml.Node

/-!
# Names and tags in front of values

Before a value may stand a name, after `&`, and a tag, which begins with `!`, in either order. A value that is named can
be referred to by `*` and the name.
-/

namespace Bracketing.Config.Yaml

/-- What stands in front of a value. -/
structure Marks where
  name : Option String := none
  tag : Option String := none
  deriving DecidableEq, Repr

namespace Marks

/-- Nothing stands in front of the value. -/
def isEmpty (m : Marks) : Bool := m.name.isNone && m.tag.isNone

/-- The value with what stands in front of it. -/
def around (m : Marks) (node : Node) : Node :=
  let node := match m.tag with
    | some tag => .tagged tag node
    | none => node
  match m.name with
  | some name => .named name node
  | none => node

/-- A character of a name. -/
def isNameChar (c : Char) : Bool := c.isAlphanum || c = '_' || c = '-'

/-- The name that comes next, and what follows it. -/
def name? (cs : List Cell) : Option (String × List Cell) :=
  let name := Cell.chars (cs.takeWhile (isNameChar ·.char))
  let after := cs.dropWhile (isNameChar ·.char)
  let ends := Cell.endsWord after || after.head?.any (['?', ':', ',', ']', '}', '%', '@', '\x60'].contains ·.char)
  if name.isEmpty || !ends then none else some (String.ofList name, after)

/-- A character of a tag. -/
def isTagChar (c : Char) : Bool :=
  isNameChar c || [';', '/', '?', ':', '@', '&', '=', '+', '$', '.', '!', '~', '*', '\'', '(', ')', '%'].contains c

/-- The tag that is written in full between angle brackets. -/
def verbatim? (cs : List Char) : Option String :=
  let standard := "tag:yaml.org,2002:".toList
  match cs.reverse with
  | '>' :: rev =>
    if rev.isEmpty then none
    else if standard.isPrefixOf rev.reverse then some (String.ofList ('!' :: '!' :: rev.reverse.drop standard.length))
    else some (String.ofList rev.reverse)
  | _ => none

/-- The tag of the characters after an exclamation mark. Only the mark itself and two of them begin a tag. -/
def tag? (cs : List Char) : Option String :=
  match cs with
  | '<' :: rest => verbatim? rest
  | '!' :: rest =>
    if rest.isEmpty || !rest.all isTagChar then none else some (String.ofList ('!' :: cs))
  | _ => if cs.all isTagChar && !cs.contains '!' then some (String.ofList ('!' :: cs)) else none

/-- The marks with the one that comes next, and what follows it; nothing if there is one of the kind already. -/
def add? (m : Marks) : List Cell → Option (Marks × List Cell)
  | [] => none
  | c :: rest =>
    if c.char = '&' then
      match m.name, name? rest with
      | none, some (name, after) => some ({ m with name := some name }, after)
      | _, _ => none
    else
      match m.tag, tag? (Cell.chars (rest.takeWhile fun c => !c.isBlank && !c.isBreak)) with
      | none, some tag => some ({ m with tag := some tag }, rest.dropWhile fun c => !c.isBlank && !c.isBreak)
      | _, _ => none

/-- A mark comes next. -/
def isNext (cs : List Cell) : Bool := cs.head?.any fun c => c.char = '&' || c.char = '!'

/-- What stands in front of a value, and what follows it after `skip`. A reference has no marks. -/
def read? (skip : List Cell → List Cell) (cs : List Cell) : Option (Marks × List Cell) := do
  if !isNext cs then some ({}, cs)
  else
    let (m, rest) ← add? {} cs
    let (m, rest) ← if isNext (skip rest) then add? m (skip rest) else some (m, rest)
    let next := skip rest
    if isNext next || next.head?.any (·.char = '*') then none else some (m, next)

end Marks

end Bracketing.Config.Yaml
