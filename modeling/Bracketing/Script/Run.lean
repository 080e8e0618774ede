import Bracketing.Path.Accessor
import Bracketing.Path.Tokens
import Bracketing.Path.Traverse
import Bracketing.Script.Step
import Bracketing.Tree.Attach

/-!
# Running scripts

The state of a script is its objects, its paths and what it has left to tell. Paths are kept in a table and addressed
by their place in it, so that a name may come to mean another path while a traversal still moves the first.
-/

namespace Bracketing.Script

open Bracketing.Document Bracketing.Source Bracketing.Tree

/-- The state of a script. -/
structure Session where
  shop : Workshop := {}
  paths : Array Path := #[]
  /-- The paths that the names mean, the latest first. -/
  bound : List (String × Nat) := []
  events : List Path.Event := []
  /-- The result of the current visit of an element. -/
  result : Answer := .null
  trace : List Entry := []
  /-- The orders in which the coordinates of positions are read. -/
  readings : Load.Readings := .byKey

/-- A step of a script as a visit. -/
abbrev Act := Visit Session ScriptError

namespace Session

/-- The objects of a session. -/
def heap (s : Session) : Heap := s.shop.heap

/-- The session with other objects. -/
def setHeap (s : Session) (h : Heap) : Session := { s with shop := { s.shop with heap := h } }

/-- The path at a place of the table. -/
def cursor (i : Nat) : Cursor Session where
  heap := Session.heap
  path s := s.paths.getD i .zero
  setPath s p := { s with paths := s.paths.setIfInBounds i p }
  reserve := 100000

/-- The places of the table can be written and read. -/
theorem cursor_lawful (i : Nat) : (cursor i).Lawful fun s => i < s.paths.size where
  path_setPath s p hs := by simp [cursor, Array.getD_eq_getD_getElem?, hs]
  heap_setPath _ _ := rfl
  setPath_path s := by
    have h : s.paths.setIfInBounds i (s.paths.getD i .zero) = s.paths := by
      refine Array.ext (by simp) fun j hj hj' => ?_
      rw [Array.getElem_setIfInBounds hj']
      split
      · rename_i hij
        subst hij
        simp [Array.getD_eq_getD_getElem?, hj']
      · rfl
    show { s with paths := s.paths.setIfInBounds i (s.paths.getD i .zero) } = s
    rw [h]
  setPath_setPath s p q := by simp [cursor]
  valid_setPath s p hs := by simpa [cursor] using hs

/-- The session with one more path, which a name means from now on. -/
def bind (s : Session) (name : String) (p : Path) : Session :=
  { s with paths := s.paths.push p, bound := (name, s.paths.size) :: s.bound }

/-- A value in brief, nodes with their names. -/
def brief (s : Session) (v : Value) : Answer := .picture (s.heap.brief s.shop.label v)

/-- A node in brief. -/
def briefNode (s : Session) : Option NodeId → Answer
  | some n => s.brief (.node n)
  | none => .null

end Session

namespace Act

variable {α : Type}

/-- Leaves an entry in the trace. -/
def tell (e : Entry) : Act Unit := Visit.change fun s => { s with trace := s.trace ++ [e] }

/-- Leaves an answer in the trace. -/
def reply (a : Answer) : Act Unit := tell (.answer a)

/-- Makes the value of a spec. -/
def make (v : Spec) : Act Value := fun s =>
  let (v, shop) := v.make s.shop
  (.done v, { s with shop := shop })

/-- Changes the objects. -/
def changeHeap (f : Heap → Heap) : Act Unit := Visit.change fun s => s.setHeap (f s.heap)

/-- The place of the path that a name means. -/
def pathAt (name : String) : Act Nat := do
  match (← Visit.state).bound.lookup name with
  | some i => return i
  | none => Visit.stop .missing

/-- The path that a name means. -/
def path (name : String) : Act Path := do
  return (Session.cursor (← pathAt name)).path (← Visit.state)

/-- Makes a name mean a new path. -/
def bind (target : String) (p : Path) : Act Unit := do
  Visit.change fun s => s.bind target p
  tell (.moved p.length none)

/-- An answer that may not exist because the question never ends. -/
def ended : Option α → Act α
  | some a => return a
  | none => Visit.stop .endless

/-- Runs an act and gives the failure it came back with, if it did. -/
def caught (a : Act α) : Act (Except (Failure ScriptError) α) := fun s =>
  match a s with
  | (.done x, t) => (.done (.ok x), t)
  | (.failed e, t) => (.done (.error e), t)
  | (.stopped x, t) => (.stopped x, t)

/-- Runs an act and records how it ended. -/
def attempted (a : Act Unit) : Act Unit := fun s =>
  match a s with
  | (.done (), t) => tell .passed t
  | (.failed e, t) => tell (.failed e) t
  | (.stopped x, t) => tell (.stopped x) t

/-! ## Questions -/

/-- The decision on the current node of a path, reported if the path asks for it. -/
def decided (p : Path) (inExpression : Bool) : Act Answer := do
  let h := (← Visit.state).heap
  let v ← Visit.answer (p.decide h inExpression)
  if p.logged then Visit.change fun s => { s with events := s.events ++ [p.event h v] }
  return .flag v.parens

/-- A token as an answer. -/
def tokenAnswer : Option Token → Answer
  | some t => .token t
  | none => .null

/-- The node that a name means. -/
def nodeNamed (name : Option String) : Act (Option NodeId) := do
  match name with
  | some name => return nodeOf ((← Visit.state).shop.find name)
  | none => return none

/-- The answer to a question about a path. -/
def query (p : Path) (q : Query) : Act Answer := do
  let s ← Visit.state
  match q with
  | .length => return .count p.length
  | .name => return s.brief p.name
  | .value => return s.brief (← Visit.answer p.value)
  | .dump => return .picture (← ended (s.heap.picture (← Visit.answer p.value)))
  | .duplicate => return .flag (← Visit.answer (p.isDuplicate s.heap))
  | .node k => return s.briefNode (p.node s.heap k)
  | .parent k => return s.briefNode (p.parent s.heap k)
  | .root => return s.brief (← Visit.answer p.rootValue)
  | .names => return .list (p.names.map s.brief)
  | .accessor => return .text (Path.accessor p.names)
  | .start => return .text (s.heap.startText (p.node s.heap))
  | .needs => decided p false
  | .needsInExpression => decided p true
  | .mayLead => return .flag (Bracketing.mayLead s.heap (p.node s.heap))
  | .leadsStatement => return .flag (← Visit.answer (p.leads s.heap true))
  | .leads => return .flag (← Visit.answer (p.leads s.heap false))
  | .hasParens => return .flag (← Visit.answer (p.hasParens s.heap))
  | .previousToken name => return tokenAnswer (← Visit.answer (p.previousToken s.heap (← nodeNamed name)))
  | .nextToken name => return tokenAnswer (← Visit.answer (p.nextToken s.heap (← nodeNamed name)))

/-- The answer to a question about a node. -/
def nodeQuery (s : Session) (n : NodeId) : NodeQuery → Answer
  | .get key => s.brief (s.heap.get n key)
  | .has key => .flag ((s.heap.node n).fields.has key)
  | .keys => .list ((s.heap.node n).fields.keys.map .text)
  | .child key => s.briefNode (s.heap.child? n key)
  | .list key =>
    match s.heap.get n key with
    | .list l => s.brief (.list l)
    | _ => .null
  | .text key => .text (s.heap.textAt n key)
  | .flag key => .flag (s.heap.flagAt n key)
  | .hasTag tags => .flag (tags.contains (s.heap.node n).tag)
  | .parenthesized => .flag (s.heap.parenthesized n)
  | .label => .text (s.heap.label (some n))

/-- The answer to a question about no node at all. -/
def noNodeQuery : NodeQuery → Answer
  | .get _ | .child _ | .list _ => .null
  | .has _ | .flag _ | .hasTag _ | .parenthesized => .flag false
  | .keys => .list []
  | .text _ => .text ""
  | .label => .text "<nil>"

/-- The condition holds at the tip of a path. -/
def holds (c : Condition) (p : Path) (h : Heap) : Bool :=
  match c with
  | .nameIs name => p.name = name
  | .tagIs tag =>
    match p.node h with
    | some n => (h.node n).tag = tag
    | none => false

/-! ## Steps that do not contain others -/

/-- Does something with the node that a value is. -/
def onNode (v : Value) (f : NodeId → Act Unit) : Act Unit :=
  match v with
  | .node n => f n
  | _ => Visit.stop .missing

/-- The token ranges of nodes. -/
def ranges (h : Heap) (ns : List NodeId) : Answer :=
  .list <| ns.map fun n =>
    .list [.text (h.node n).tag,
      match h.location? n with
      | some l =>
        let r := l.range.getD {}
        .list [.count r.first, .count r.stop]
      | none => .null]

/-- Attaches tokens to the tree of a node and tells the ranges. -/
def attach (v : Value) (tokens : List (Option Token)) : Act Unit := do
  let (h, stop) := (← Visit.state).heap.attach v tokens
  changeHeap fun _ => h
  match stop with
  | some s => Visit.stop s
  | none => reply (ranges h (← ended (h.preorder v)))

/-- Stores a value at an index of a list. -/
def setElement (v : Value) (i : Int) (content : Value) : Act Unit := do
  match v with
  | .list l =>
    if 0 ≤ i && i < ((← Visit.state).heap.list l).length then changeHeap fun h => h.setElement l i.toNat content
    else Visit.stop .missing
  | _ => Visit.stop .missing
  reply ((← Visit.state).brief v)

/-- Loads a document and gives its root a name. -/
def load (text : String) (name : Option String) : Act Unit := do
  match loadText (← Visit.state).readings (← Visit.state).heap text with
  | .error e => Visit.fail (.own (.load e))
  | .ok (n, h) =>
    changeHeap fun _ => h
    match name with
    | some name => Visit.change fun s => { s with shop := s.shop.call name (.node n) }
    | none => return ()
    reply ((← Visit.state).brief (.node n))

/-- Makes the links of a chain of ancestors. -/
def links : List (Value × Spec) → Act (List Path.Link)
  | [] => return []
  | (name, v) :: rest => do
    let v ← make v
    return ⟨name, v⟩ :: (← links rest)

/-- The failure of a traversal. -/
def failure? : Except (Failure ScriptError) α → Option (Failure ScriptError)
  | .ok _ => none
  | .error e => some e

/-! ## Steps -/

mutual

/-- Runs a step. -/
def step : Step → Act Unit
  | .newPath root options target => do bind target (Path.new (← make root) options)
  | .namedPath name root options target => do bind target (Path.named name (← make root) options)
  | .zeroPath target => bind target .zero
  | .copyPath source target => do bind target (← path source)
  | .adaptPath source options target => do bind target ((← path source).adapted options)
  | .replayPath chain options target => do
    bind target (Path.ofStack (Path.replay (← links chain)) options)
  | .foreignPath typeName options target => bind target (Path.new (.foreign typeName) options)
  | .call name names body => do
    let c := Session.cursor (← pathAt name)
    let out ← caught (c.call names (steps body))
    tell (.moved (c.path (← Visit.state)).length (failure? out))
  | .each name names body => do
    let c := Session.cursor (← pathAt name)
    let out ← caught (c.each names (steps body))
    tell (.moved (c.path (← Visit.state)).length (failure? out))
  | .map name names body => do
    let c := Session.cursor (← pathAt name)
    let out ← caught (c.map names do
      Visit.change fun s => { s with result := .null }
      steps body
      return (← Visit.state).result)
    let results := match out with
      | .ok rs => some (rs.map (·.getD .null))
      | .error _ => none
    tell (.mapped (c.path (← Visit.state)).length (failure? out) results)
  | .walk name body => do
    let c := Session.cursor (← pathAt name)
    let out ← caught (c.walk (steps body))
    tell (.moved (c.path (← Visit.state)).length (failure? out))
  | .attempt body => attempted (steps body)
  | .fail text => Visit.fail (.own (.message text))
  | .raise text => Visit.stop (.raised text)
  | .skip none => Visit.fail .skipChildren
  | .skip (some context) => Visit.fail (.wrapped context .skipChildren)
  | .give name q => do
    let a ← query (← path name) q
    Visit.change fun s => { s with result := a }
  | .ask name qs => do
    let p ← path name
    reply (.list (← Visit.collect (query p) qs))
  | .takeEvents => do
    tell (.events (← Visit.state).events)
    Visit.change fun s => { s with events := [] }
  | .bring v => do
    let v ← make v
    reply ((← Visit.state).brief v)
  | .load text name => load text name
  | .dump v => do
    let v ← make v
    reply (.picture (← ended ((← Visit.state).heap.picture v)))
  | .askNode v qs => do
    let v ← make v
    let s ← Visit.state
    match nodeOf v with
    | some n => reply (.list (qs.map (nodeQuery s n)))
    | none => reply (.list (qs.map noNodeQuery))
  | .set v key content => do
    let v ← make v
    let content ← make content
    onNode v fun n => changeHeap fun h => h.set n key content
    reply ((← Visit.state).brief v)
  | .mark v b => do
    let v ← make v
    onNode v fun n => changeHeap fun h => h.setParenthesized n b
    reply ((← Visit.state).brief v)
  | .locate v l => do
    let v ← make v
    onNode v fun n => changeHeap fun h => h.setLocation n l
    reply (.text ((← Visit.state).heap.label (nodeOf v)))
  | .setElement v i content => do
    let v ← make v
    setElement v i (← make content)
  | .inspect v closed => do
    let v ← make v
    let h := (← Visit.state).heap
    let ns ← ended (h.preorderWhere (fun n => !closed.contains (h.node n).tag) v)
    reply (.list (ns.map fun n => .text (h.label (some n))))
  | .search v tag => do
    let v ← make v
    let h := (← Visit.state).heap
    let r ← ended (h.search (fun n => (h.node n).tag = tag) v)
    reply (.list [.flag r.found, .count r.tested])
  | .count v => do
    let v ← make v
    reply (.count (← ended ((← Visit.state).heap.count v)))
  | .validate v g => do
    let v ← make v
    tell (.problems (← Visit.answer ((← Visit.state).heap.validate g (nodeOf v))))
  | .attach v tokens => do
    let v ← make v
    attach v tokens
  | .when c name inner => do
    let p ← path name
    if holds c p (← Visit.state).heap then step inner

/-- Runs steps one after the other. -/
def steps : List Step → Act Unit
  | [] => Visit.give ()
  | s :: rest => Visit.andThen (step s) fun _ => steps rest

end

end Act

/-- Runs the steps of a script; what comes out of one is recorded and the next is run. -/
def runFrom : List Step → Session → Session
  | [], s => s
  | x :: rest, s =>
    match Act.step x s with
    | (.done (), t) => runFrom rest t
    | (.failed e, t) => runFrom rest { t with trace := t.trace ++ [.failed e] }
    | (.stopped e, t) => runFrom rest { t with trace := t.trace ++ [.stopped e] }

/-- The trace of a script. -/
def run (script : List Step) : List Entry := (runFrom script {}).trace

end Bracketing.Script
