import Bracketing.Source.Position
import Bracketing.Text.Quoted

/-!
# Tokens

A token of a source text: its category, its own text and the span it covers. A token may be missing, and a missing
token has a text of its own but matches nothing.
-/

namespace Bracketing.Source

open Bracketing.Text

/-- A lexical token and where it stands. -/
structure Token where
  category : String := ""
  value : String := ""
  span : Span := {}
  deriving DecidableEq, Inhabited, Repr

/-- The token, if there is one, reads `v`. -/
def Token.reads (t : Option Token) (v : String) : Bool :=
  match t with
  | some t => t.value = v
  | none => false

/-- Category, quoted text and span of a token; a missing token is `<nil>`. -/
def Token.text : Option Token → String
  | some t => t.category ++ " " ++ quote t.value ++ " (" ++ t.span.start.text ++ "-" ++ t.span.stop.text ++ ")"
  | none => "<nil>"

end Bracketing.Source
