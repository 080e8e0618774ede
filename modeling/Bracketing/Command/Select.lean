import Bracketing.Command.Flag

/-!
# Which command is meant

The first argument that is neither a flag nor the value of a flag names the command. At this point only the flags that
every command shares are known, so an unknown flag counts as one with a value.
-/

namespace Bracketing.Command

open Bracketing.Text

/-- What the program can do. -/
inductive Verb where
  /-- Tell how the program is used. -/
  | overview
  /-- List the nodes that must be printed in parentheses. -/
  | parens
  /-- List the tokens around every node. -/
  | tokens
  deriving DecidableEq, Repr

/-- The flags that every command knows. -/
def sharedFlags : List Flag :=
  [{ name := "config", isSwitch := false }, { name := "no-color" }, { name := "log-level", isSwitch := false },
    { name := "no-validate" }]

/-- The flag that asks for help. -/
def helpFlag : Flag := { name := "help", letter := some 'h' }

/-- The flags of a command. -/
def Verb.flags : Verb → List Flag
  | .overview => helpFlag :: { name := "version", letter := some 'v' } :: sharedFlags
  | .parens =>
    helpFlag :: { name := "all" } :: { name := "expression-context" } ::
      { name := "output", letter := some 'o', isSwitch := false } :: sharedFlags
  | .tokens => helpFlag :: sharedFlags

/-- The command that a word names. -/
def Verb.ofWord? : String → Option Verb
  | "parens" => some .parens
  | "tokens" => some .tokens
  | "help" | "completion" => some .overview
  | _ => none

namespace Select

/-- An argument before the command's name that takes the next argument as its value. -/
def takesNext (s : String) : Bool :=
  match s.toList with
  | '-' :: '-' :: name => !name.contains '=' && !sharedFlags.any fun f => f.isSwitch && f.name = String.ofList name
  | ['-', c] => c ≠ '=' && c.toNat < 0x80
  | _ => false

/-- An argument that is neither empty nor a flag. -/
def isWord (s : String) : Bool :=
  match s.toList with
  | [] | '-' :: _ => false
  | _ => true

/-- The first word among arguments. A flag that could take the last argument ends the search. -/
def word? : List String → Option String
  | [] => none
  | s :: rest =>
    if s = "--" then none
    else if takesNext s then
      match rest with
      | _ :: t :: rest => word? (t :: rest)
      | _ => none
    else if isWord s then some s
    else word? rest

/-- The arguments without the first occurrence of a word that is not the value of a flag. -/
def dropWord (w : String) : List String → List String
  | [] => []
  | s :: rest =>
    if s = "--" then s :: rest
    else if takesNext s then
      match rest with
      | [] => [s]
      | value :: rest => s :: value :: dropWord w rest
    else if s = w then rest
    else s :: dropWord w rest

/-- The rest of a row of the table of edit distances, for one letter `a` of the word: `left` is the entry to the left,
`diagonal` the one above it, and the lists are the letters of the text and the entries above. -/
def restOfRow {α : Type} [BEq α] (a : α) (diagonal left : Nat) : List α → List Nat → List Nat
  | b :: text, above :: row =>
    let here := if a == b then diagonal else 1 + min diagonal (min left above)
    here :: restOfRow a above here text row
  | _, _ => []

/-- The row of the table of edit distances below `row`, for one more letter `a` of the word. -/
def nextRow {α : Type} [BEq α] (a : α) (text : List α) : List Nat → List Nat
  | [] => []
  | d :: row => (d + 1) :: restOfRow a d (d + 1) text row

/-- The number of letters to insert, remove or replace in order to get from one text to another. -/
def editDistance {α : Type} [BEq α] (word text : List α) : Nat :=
  (word.foldl (fun row a => nextRow a text row) (List.range (text.length + 1))).getLastD 0

/-- Capital letters outside ASCII whose small form takes another number of bytes, with that form. -/
def unevenLetters : List (Nat × Nat) :=
  [(0x0130, 0x0069), (0x023A, 0x2C65), (0x023E, 0x2C66), (0x1E9E, 0x00DF), (0x2126, 0x03C9), (0x212A, 0x006B),
    (0x212B, 0x00E5), (0x2C62, 0x026B), (0x2C64, 0x027D), (0x2C6D, 0x0251), (0x2C6E, 0x0271), (0x2C6F, 0x0250),
    (0x2C70, 0x0252), (0x2C7E, 0x023F), (0x2C7F, 0x0240), (0xA78D, 0x0265), (0xA7AA, 0x0266), (0xA7AB, 0x025C),
    (0xA7AC, 0x0261), (0xA7AD, 0x026C), (0xA7AE, 0x026A), (0xA7B0, 0x029E), (0xA7B1, 0x0287), (0xA7B2, 0x029D),
    (0xA7C5, 0x0282), (0xA7CB, 0x0264), (0xA7DC, 0x019B)]

/-- The small form of a letter, as far as it matters beside names in ASCII: any other letter outside ASCII takes as many
bytes in its small form and differs from theirs in all of them. -/
def lowerCase (c : Char) : Char :=
  match unevenLetters.lookup c.toNat with
  | some n => Char.ofNat n
  | none => c.toLower

/-- A word in small letters. -/
def lowered (w : String) : String := w.map lowerCase

/-- The command names that a misspelt word may stand for: at most two edits of bytes away, or begun by the word, in
either case of letters. -/
def suggestions (w : String) : List String :=
  ["parens", "tokens", "completion"].filter fun name =>
    editDistance (lowered w).toUTF8.toList name.toUTF8.toList ≤ 2 || (lowered w).toList.isPrefixOf name.toList

/-- The message for a word that names no command. -/
def unknownMessage (w : String) : String :=
  "unknown command " ++ quote w ++ " for \"fastpath\"" ++
    match suggestions w with
    | [] => ""
    | names => "\n\nDid you mean this?\n" ++ String.join (names.map fun name => "\t" ++ name ++ "\n")

end Select

/-- The command that the arguments name and the arguments left for it, or the word that names none. -/
def select (args : List String) : Except String (Verb × List String) :=
  match Select.word? args with
  | none => .ok (.overview, args)
  | some w =>
    match Verb.ofWord? w with
    | some .overview => .ok (.overview, [])
    | some v => .ok (v, Select.dropWord w args)
    | none => .error w

end Bracketing.Command
