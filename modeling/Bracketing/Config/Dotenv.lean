import Bracketing.Document.Datum

/-!
# Configuration files of assignments

A file with an assignment a line, as a shell would take it: a name, an equals sign or a colon with a blank, and perhaps
a value in quotes or up to a comment. A name consists of letters, digits, underscores and dots. Empty lines and comments
do not count.
-/

namespace Bracketing.Config.Dotenv

open Bracketing.Document

/-- A character of a name. -/
def isNamePart (c : Char) : Bool := c.isAlphanum || c = '_' || c = '.'

/-- The characters without blanks at either end. -/
def trim (cs : List Char) : List Char :=
  ((cs.dropWhile Char.isWhitespace).reverse.dropWhile Char.isWhitespace).reverse

/-- The characters without a word in front that a blank follows. -/
def dropExport (cs : List Char) : List Char :=
  match cs.splitAt 6 with
  | (word, c :: rest) => if word = "export".toList && c.isWhitespace then rest.dropWhile Char.isWhitespace else cs
  | _ => cs

/-- What follows the sign between a name and its value. -/
def afterSign? (cs : List Char) : Option (List Char) :=
  match cs with
  | ':' :: c :: rest => if c.isWhitespace then some rest else none
  | cs =>
    match cs.dropWhile Char.isWhitespace with
    | '=' :: rest => some rest
    | _ => none

/-- The value of an assignment. Behind a value in quotes only a comment may follow. -/
def value? (cs : List Char) : Option String :=
  match trim cs with
  | [] => some ""
  | q :: rest =>
    let bare := String.ofList (trim ((q :: rest).takeWhile (· ≠ '#')))
    if q = '"' || q = '\'' then
      let text := rest.takeWhile (· ≠ q)
      match rest.drop text.length with
      | _ :: after =>
        match trim after with
        | [] | '#' :: _ => some (String.ofList text)
        | _ => some bare
      | [] => none
    else some bare

/-- The assignment on a line; nothing if the line is malformed. -/
def assignment? (line : List Char) : Option (String × Datum) :=
  let cs := dropExport (trim line)
  let name := cs.takeWhile isNamePart
  if name.isEmpty then none
  else
    match afterSign? (cs.drop name.length) with
    | some rest => (value? rest).map fun v => (String.ofList name, .str v)
    | none => none

/-- What a configuration file says, or nothing if it is malformed. -/
def read? (s : String) : Option Datum :=
  let lines := (s.splitOn "\n").map fun l => trim l.toList
  let isAssignment (l : List Char) : Bool := l.head?.any (· ≠ '#')
  ((lines.filter isAssignment).mapM assignment?).map .mapping

end Bracketing.Config.Dotenv
