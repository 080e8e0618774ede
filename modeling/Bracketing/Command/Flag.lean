import Bracketing.Text.Quoted

/-!
# Flags on a command line

A flag is named in full after two dashes or by its letter after one. A switch stands alone, or has a truth value after
an equals sign; any other flag takes a value, after an equals sign or as the next argument. Flags and operands may come
in any order, and after two dashes alone every argument is an operand.

- `Flag.parse` splits the arguments of a command into what its flags are set to and its operands.
-/

namespace Bracketing.Command

open Bracketing.Text

/-- A flag of a command. -/
structure Flag where
  name : String
  letter : Option Char := none
  /-- A switch is on or off; any other flag has a text as its value. -/
  isSwitch : Bool := true
  deriving DecidableEq, Repr

/-- The flag as messages show it. -/
def Flag.shown (f : Flag) : String :=
  match f.letter with
  | some c => "-" ++ String.singleton c ++ ", --" ++ f.name
  | none => "--" ++ f.name

/-- What can be wrong with an argument that starts with a dash. -/
inductive FlagError where
  | badForm (argument : String)
  | unknown (name : String)
  /-- No flag has this letter, the first one of `letters`. -/
  | unknownLetter (letter : Char) (letters : String)
  | noValue (name : String)
  | noValueAfterLetter (letter : Char) (letters : String)
  | notTruthValue (flag : Flag) (value : String)
  deriving DecidableEq, Repr

/-- A letter as messages show it: quoted, and of a letter beyond ASCII only the first byte of its encoding. -/
def quoteLetter (c : Char) : String :=
  quoteChar (Char.ofNat (((String.utf8EncodeChar c).head?.map UInt8.toNat).getD 0))

/-- The message of an argument that is wrong. -/
def FlagError.message : FlagError → String
  | badForm argument => "bad flag syntax: " ++ argument
  | unknown name => "unknown flag: --" ++ name
  | unknownLetter letter letters => "unknown shorthand flag: " ++ quoteLetter letter ++ " in -" ++ letters
  | noValue name => "flag needs an argument: --" ++ name
  | noValueAfterLetter letter letters => "flag needs an argument: " ++ quoteLetter letter ++ " in -" ++ letters
  | notTruthValue flag value =>
    "invalid argument " ++ quote value ++ " for " ++ quote flag.shown ++ " flag: strconv.ParseBool: parsing " ++
      quote value ++ ": invalid syntax"

/-- The truth value that a text spells. -/
def truthValue? (s : String) : Option Bool :=
  if ["1", "t", "T", "TRUE", "true", "True"].contains s then some true
  else if ["0", "f", "F", "FALSE", "false", "False"].contains s then some false
  else none

/-- The arguments of a command: what its flags are set to, in the order of the arguments, and its operands. -/
structure Arguments where
  settings : List (String × String) := []
  operands : List String := []
  deriving DecidableEq, Repr

namespace Arguments

/-- The value of a flag, if it is set: the last one given. -/
def value? (a : Arguments) (name : String) : Option String := a.settings.reverse.lookup name

/-- The truth value of a switch, if it is set. -/
def switch? (a : Arguments) (name : String) : Option Bool := (a.value? name).bind truthValue?

/-- A switch is set, and on. -/
def isOn (a : Arguments) (name : String) : Bool := (a.switch? name).getD false

end Arguments

namespace Flag

/-- The setting of a flag to a value; a switch takes truth values only. -/
def set (f : Flag) (value : String) : Except FlagError (String × String) :=
  if f.isSwitch && (truthValue? value).isNone then .error (.notTruthValue f value) else .ok (f.name, value)

/-- What an argument that starts with a dash sets, and whether the next argument is used up as a value. -/
abbrev Reading := List (String × String) × Bool

/-- Reads what follows two dashes. -/
def readName (flags : List Flag) (body : List Char) (next : Option String) : Except FlagError Reading :=
  match body with
  | '-' :: _ | '=' :: _ => .error (.badForm ("--" ++ String.ofList body))
  | _ =>
    let name := String.ofList (body.takeWhile (· ≠ '='))
    match flags.find? (·.name = name) with
    | none => .error (.unknown name)
    | some f =>
      match body.dropWhile (· ≠ '='), next with
      | _ :: value, _ => return ([← f.set (String.ofList value)], false)
      | [], next =>
        if f.isSwitch then return ([← f.set "true"], false)
        else
          match next with
          | some value => return ([← f.set value], true)
          | none => .error (.noValue name)

/-- Reads the letters that follow one dash: switches, and at the end possibly a flag with its value. -/
def readLetters (flags : List Flag) (next : Option String) : List Char → Except FlagError Reading
  | [] => .ok ([], false)
  | c :: rest =>
    match flags.find? (·.letter = some c) with
    | none => .error (.unknownLetter c (String.ofList (c :: rest)))
    | some f =>
      match rest with
      | '=' :: d :: value => return ([← f.set (String.ofList (d :: value))], false)
      | rest =>
        if f.isSwitch then do
          let first ← f.set "true"
          let (more, usesNext) ← readLetters flags next rest
          return (first :: more, usesNext)
        else
          match rest, next with
          | d :: value, _ => return ([← f.set (String.ofList (d :: value))], false)
          | [], some value => return ([← f.set value], true)
          | [], none => .error (.noValueAfterLetter c (String.ofList [c]))

/-- Splits arguments into settings of the flags and operands; the first argument that is wrong is reported. -/
def parse (flags : List Flag) : List String → Except FlagError Arguments
  | [] => .ok {}
  | s :: rest => do
    match s.toList with
    | ['-', '-'] => return { operands := rest }
    | '-' :: c :: body =>
      let (settings, usesNext) ←
        if c = '-' then readName flags body rest.head? else readLetters flags rest.head? (c :: body)
      match usesNext, rest with
      | true, _ :: rest =>
        let a ← parse flags rest
        return { a with settings := settings ++ a.settings }
      | _, rest =>
        let a ← parse flags rest
        return { a with settings := settings ++ a.settings }
    | _ =>
      let a ← parse flags rest
      return { a with operands := s :: a.operands }

end Flag

end Bracketing.Command
