import Bracketing.Config.Toml.Table
import Bracketing.Config.Toml.Value

/-!
# Configuration files in TOML

A file is a sequence of lines: a key with its value, the header of a table, or the header of one more table of a list.
A key may be a path through several tables. `read?` gives what a file says, or nothing if it is malformed.
-/

namespace Bracketing.Config.Toml

open Bracketing.Document

/-- A character of a key without quotes. -/
def isKeyPart (c : Char) : Bool := c.isAlphanum || c = '_' || c = '-'

/-- A path of keys with dots in between, and what follows it. -/
def path? : Nat → List Char → Result (List String)
  | 0, _ => none
  | fuel + 1, cs =>
    let key? : Result String :=
      match skipBlanks cs with
      | [] => none
      | c :: rest =>
        if c = '"' || c = '\'' then lineString? c (rest.length + 1) [] rest
        else
          let key := (c :: rest).takeWhile isKeyPart
          if key.isEmpty then none else some (String.ofList key, (c :: rest).drop key.length)
    match key? with
    | none => none
    | some (key, rest) =>
      match skipBlanks rest with
      | '.' :: more => (path? fuel more).map fun (keys, after) => (key :: keys, after)
      | after => some ([key], after)

/-- What follows a comment, which may not hold control characters. -/
def skipComment? (cs : List Char) : Option (List Char) :=
  let text := (cs.takeWhile (· ≠ '\n'))
  let text := if text.getLast? = some '\r' then text.dropLast else text
  if text.any isControl then none else some (cs.dropWhile (· ≠ '\n'))

/-- The text behind blanks, ends of line and comments. -/
def skipTrivia? : Nat → List Char → Option (List Char)
  | 0, _ => none
  | fuel + 1, cs =>
    match skipBlanks cs with
    | '\n' :: rest | '\r' :: '\n' :: rest => skipTrivia? fuel rest
    | '#' :: rest =>
      match skipComment? rest with
      | some rest => skipTrivia? fuel rest
      | none => none
    | rest => some rest

mutual

/-- A value, and what follows it. -/
def value? : Nat → List Char → Result Datum
  | 0, _ => none
  | fuel + 1, cs =>
    match cs with
    | '"' :: _ | '\'' :: _ => (string? cs).map fun (s, rest) => (.str s, rest)
    | '[' :: rest => items? fuel [] rest
    | '{' :: rest =>
      match skipBlanks rest with
      | '}' :: rest => some (.mapping [], rest)
      | rest => members? fuel [] rest
    | cs =>
      let word := cs.takeWhile isWordPart
      let after := cs.drop word.length
      -- A blank may stand between a date and a time.
      match after with
      | ' ' :: c :: _ =>
        let time := (after.drop 1).takeWhile isWordPart
        if isMoment word && word[2]? ≠ some ':' && c.isDigit then
          (word? (word ++ ' ' :: time)).map (·, after.drop (1 + time.length))
        else (word? word).map (·, after)
      | _ => (word? word).map (·, after)

/-- The items of a list after those read, of which the last comes first, up to the closing bracket. -/
def items? : Nat → List Datum → List Char → Result Datum
  | 0, _, _ => none
  | fuel + 1, read, cs =>
    match skipTrivia? (cs.length + 1) cs with
    | some (']' :: rest) => some (.list read.reverse, rest)
    | some rest =>
      match value? fuel rest with
      | none => none
      | some (d, rest) =>
        match skipTrivia? (rest.length + 1) rest with
        | some (',' :: rest) => items? fuel (d :: read) rest
        | some (']' :: rest) => some (.list (d :: read).reverse, rest)
        | _ => none
    | none => none

/-- The members of a table on one line after those read, up to the closing brace. -/
def members? : Nat → Table → List Char → Result Datum
  | 0, _, _ => none
  | fuel + 1, read, cs =>
    match path? (cs.length + 1) cs with
    | some (path, '=' :: rest) =>
      match value? fuel (skipBlanks rest) with
      | none => none
      | some (d, rest) =>
        match Table.alter (Table.set d) path read, skipBlanks rest with
        | some read, ',' :: rest => members? fuel read rest
        | some read, '}' :: rest => some (read.datum, rest)
        | _, _ => none
    | _ => none

end

/-- The path of a header up to its closing brackets, and what follows them. -/
def header? (closing : List Char) (cs : List Char) : Result (List String) :=
  match path? (cs.length + 1) cs with
  | some (path, rest) => if closing.isPrefixOf rest then some (path, rest.drop closing.length) else none
  | none => none

/-- Reads a line: the path of the open table and all tables after it, and what follows the line. -/
def line? (opened : List String) (t : Table) (cs : List Char) : Option ((List String × Table) × List Char) :=
  match cs with
  | '[' :: '[' :: rest => do
    let (path, rest) ← header? [']', ']'] rest
    return ((path, ← Table.alter Table.openNext path t), rest)
  | '[' :: rest => do
    let (path, rest) ← header? [']'] rest
    return ((path, ← Table.alter Table.openTable path t), rest)
  | cs =>
    match path? (cs.length + 1) cs with
    | some (path, '=' :: rest) => do
      let rest := skipBlanks rest
      let (d, rest) ← value? (rest.length + 1) rest
      return ((opened, ← Table.alter (Table.set d) (opened ++ path) t), rest)
    | _ => none

/-- Nothing but a comment stands before the end of the line. -/
def endsLine (cs : List Char) : Bool :=
  match skipBlanks cs with
  | [] | '\n' :: _ | '\r' :: '\n' :: _ | '#' :: _ => true
  | _ => false

/-- The tables of a file, after those already read. -/
def tables? : Nat → List String → Table → List Char → Option Table
  | 0, _, _, _ => none
  | fuel + 1, opened, t, cs =>
    match skipTrivia? (cs.length + 1) cs with
    | none => none
    | some [] => some t
    | some cs =>
      match line? opened t cs with
      | some ((opened, t), rest) => if endsLine rest then tables? fuel opened t rest else none
      | none => none

/-- What a configuration file says, or nothing if it is malformed. -/
def read? (s : String) : Option Datum :=
  let cs := s.toList
  (tables? (cs.length + 1) [] [] cs).map Table.datum

end Bracketing.Config.Toml
