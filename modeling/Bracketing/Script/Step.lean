import Bracketing.Document.Load
import Bracketing.Path.Visit
import Bracketing.Report.Picture
import Bracketing.Script.Spec
import Bracketing.Tree.Validate
import Bracketing.Verdict.Decide

/-!
# Scripts

A script is a list of steps that make values and paths, move the paths and ask them questions. The steps inside a
traversal are its visitor. Running a script leaves a trace, one entry for every step that has something to tell.
-/

namespace Bracketing.Script

open Bracketing.Document Bracketing.Source Bracketing.Tree

/-- A question about a path. -/
inductive Query where
  | length
  | name
  | value
  | dump
  | duplicate
  | node (k : Int64)
  | parent (k : Int64)
  | root
  | names
  | accessor
  | start
  | needs
  | needsInExpression
  | mayLead
  | leadsStatement
  | leads
  | hasParens
  /-- The token before a named node, or before the current one. -/
  | previousToken (name : Option String)
  | nextToken (name : Option String)
  deriving Repr

/-- A question about a node. -/
inductive NodeQuery where
  | get (key : String)
  | has (key : String)
  | keys
  | child (key : String)
  | list (key : String)
  | text (key : String)
  | flag (key : String)
  | hasTag (tags : List String)
  | parenthesized
  | label
  deriving Repr

/-- The answer to a question. -/
inductive Answer where
  | null
  | flag (b : Bool)
  | count (i : Int)
  | text (s : String)
  | picture (p : Picture)
  | token (t : Token)
  | list (items : List Answer)
  deriving Inhabited

/-- What a visitor of a script fails with, apart from what traversals do. -/
inductive ScriptError where
  | load (e : LoadError)
  | message (text : String)
  deriving DecidableEq, Repr

/-- The message of a failure. -/
def ScriptError.text : ScriptError → String
  | load e => e.message
  | message t => t

/-- When a step is to be run. -/
inductive Condition where
  | nameIs (name : Value)
  | tagIs (tag : String)
  deriving Repr

/-- A step of a script. A step that uses a path names it, and one that makes a path names the place for it. -/
inductive Step where
  | newPath (root : Spec) (options : Path.Options) (target : String)
  | namedPath (name : Value) (root : Spec) (options : Path.Options) (target : String)
  | zeroPath (target : String)
  | copyPath (path : String) (target : String)
  /-- A copy of a path under other options. -/
  | adaptPath (path : String) (options : Path.Options) (target : String)
  | replayPath (chain : List (Value × Spec)) (options : Path.Options) (target : String)
  | foreignPath (typeName : String) (options : Path.Options) (target : String)
  | call (path : String) (names : List Value) (body : List Step)
  | each (path : String) (names : List Value) (body : List Step)
  | map (path : String) (names : List Value) (body : List Step)
  | walk (path : String) (body : List Step)
  /-- Runs steps and records what came out of them instead of passing it on. -/
  | attempt (body : List Step)
  | fail (text : String)
  | raise (text : String)
  | skip (context : Option String)
  /-- Sets the result of the visit of an element. -/
  | give (path : String) (query : Query)
  | ask (path : String) (queries : List Query)
  | takeEvents
  | bring (v : Spec)
  | load (text : String) (name : Option String)
  | dump (v : Spec)
  | askNode (v : Spec) (queries : List NodeQuery)
  | set (v : Spec) (key : String) (content : Spec)
  | mark (v : Spec) (parenthesized : Bool)
  | locate (v : Spec) (location : Option Location)
  | setElement (v : Spec) (i : Int) (content : Spec)
  | inspect (v : Spec) (closed : List String)
  | search (v : Spec) (tag : String)
  | count (v : Spec)
  | validate (v : Spec) (grammar : Grammar)
  | attach (v : Spec) (tokens : List (Option Token))
  | when (condition : Condition) (path : String) (step : Step)
  deriving Inhabited

/-- What a step leaves in the trace. -/
inductive Entry where
  /-- The length of a path, and the failure that a traversal of it came back with. -/
  | moved (length : Nat) (failure : Option (Failure ScriptError))
  /-- As `moved`, with the results of a mapping traversal. -/
  | mapped (length : Nat) (failure : Option (Failure ScriptError)) (results : Option (List Answer))
  | passed
  | failed (e : Failure ScriptError)
  | stopped (s : Stop)
  | answer (a : Answer)
  | events (es : List Path.Event)
  | problems (ps : List Problem)

end Bracketing.Script
