import TagMarkup.Filter.Action
import TagMarkup.Text.Integer

/-! Filters written as data. A script goes through its steps with a text that it writes, the
output, and a flag that says whether the output is ready. -/

namespace TagMarkup

namespace Script

/-- A text that a step uses. -/
inductive Expr
  | text (t : Text)
  | value (group : Nat)
  | joined (group : Nat) (sep : Text)
  | tagKey
  | output
  deriving DecidableEq, Repr

inductive Mark
  | role (r : Role)
  | blockOpener
  | blockCloser
  deriving DecidableEq, Repr

def Mark.text (d : Delimiters) : Mark → Text
  | role r => d.get r
  | blockOpener => d.blockOpener
  | blockCloser => d.blockCloser

inductive Edit (α : Type)
  | set (key value : α)
  | count (key : α)
  | append (key value : α)
  | erase (key : α)
  | clear
  deriving DecidableEq, Repr

def Edit.map {α β : Type} (f : α → β) : Edit α → Edit β
  | set key value => set (f key) (f value)
  | count key => count (f key)
  | append key value => append (f key) (f value)
  | erase key => erase (f key)
  | clear => clear

/-- Adds one to the number under a key, which is 0 at first. -/
def countUp (key : Text) (s : Store) : Int64 × Store :=
  let n : Int64 := (s.get? key).getD 0 + 1
  (n, s.set key n)

def Edit.apply : Edit Text → Store → Store
  | set key value, s => s.set key value
  | count key, s => (countUp key s).2
  | append key value, s => s.set key ((s.get? key).getD ([] : Text) ++ value)
  | erase key, s => s.erase key
  | clear, _ => ∅

inductive Moment
  | passEnd
  | runEnd
  deriving DecidableEq, Repr

inductive Condition
  | passBefore (n : Nat)
  | equal (a b : Expr)
  | knows (name : Expr)
  | stored (key : Expr)
  | hasPath
  deriving DecidableEq, Repr

/-- A step without steps of its own. Those that give a text append it to the output. -/
inductive Step
  | append (e : Expr)
  | joined (group : Nat) (sep : Expr)
  | allJoined (groupSep valueSep : Expr)
  | groupShown (group : Nat) (sep : Expr)
  | groupCount
  | plain
  | path
  | passIndex
  | depth
  | mark (m : Mark)
  | wrap
  | tagPerGroup (sep : Expr)
  | upperCase
  | clear
  | setReady (ready : Bool)
  | fail (reason : Expr)
  | sum (e : Expr) (n : Int64)
  | knows (name : Expr)
  | uninstall (name : Expr)
  | define (name text : Expr)
  | store (key value : Expr)
  | count (key : Expr)
  | retrieve (key : Expr)
  | fetch (key value : Expr)
  | forget (key : Expr)
  | storeSize
  | queue (moment : Moment) (key : Expr) (edits : List (Edit Expr)) (queued refused : Expr)
  deriving DecidableEq, Repr

end Script

/-- Steps one after another, of which some hold steps of their own. -/
inductive Script
  | stop
  | step (s : Script.Step) (next : Script)
  | install (name : Script.Expr) (splitting : SplitRule) (body next : Script)
  | branch (condition : Script.Condition) (yes no next : Script)
  deriving Inhabited

namespace Script

/-- The output and whether it is ready. -/
structure Output where
  text : Text
  ready : Bool

/-- The tag that a script runs for. -/
structure Scope where
  call : Call
  around : Surroundings

namespace Output

def start : Output := ⟨[], true⟩

def append (o : Output) (t : Text) : Output := { o with text := o.text ++ t }

def answer (o : Output) : Answer := ⟨o.text, o.ready⟩

end Output

def natText (n : Nat) : Text := (toString n).toList

def boolText (b : Bool) : Text := (toString b).toList

def Expr.eval (scope : Scope) (o : Output) : Expr → Text
  | text t => t
  | value group => (scope.call.value? group).getD []
  | joined group sep => scope.call.joined group sep
  | tagKey => scope.call.key
  | output => o.text

/-- The places of a path with points between them. -/
def pathText : Option Path → Text
  | some path => ['.'].intercalate (path.map natText)
  | none => ['-']

/-- The size of a group and its values. -/
def groupText (sep : Text) : Option (List Text) → Text
  | some values => natText values.length ++ '<' :: sep.intercalate values ++ ['>']
  | none => "none".toList

/-- The text or number under a key. -/
def retrieveText (key : Text) (s : Store) : Text :=
  match s.values.get? key with
  | some (.text t) => t
  | some (.int n) => (toString n).toList
  | _ => ['?']

/-- The action of a step, and after it what `next` does with the output. -/
def Step.action (scope : Scope) (o : Output) (next : Output → Action) : Step → Action
  | append e => next (o.append (e.eval scope o))
  | joined group sep => next (o.append (scope.call.joined group (sep.eval scope o)))
  | allJoined groupSep valueSep => next <| o.append <|
      (groupSep.eval scope o).intercalate
        (scope.call.groups.map (valueSep.eval scope o).intercalate)
  | groupShown group sep => next (o.append (groupText (sep.eval scope o) (scope.call.group? group)))
  | groupCount => next (o.append (natText scope.call.groups.length))
  | plain => next (o.append (boolText scope.call.isPlain))
  | path => next (o.append (pathText scope.around.path?))
  | passIndex => next (o.append (natText scope.around.info.index))
  | depth => next (o.append (natText scope.around.info.depth.toNat))
  | mark m => next (o.append (m.text scope.around.info.delimiters))
  | wrap => next { o with text := scope.around.info.delimiters.wrap o.text }
  | tagPerGroup sep =>
    let d := scope.around.info.delimiters
    next <| o.append <| (sep.eval scope o).intercalate <|
      scope.call.groups.map fun values => d.wrap (d.sep.intercalate values)
  | upperCase => next { o with text := o.text.map Char.toUpper }
  | clear => next { o with text := [] }
  | setReady ready => next { o with ready }
  | fail reason => .refuse (reason.eval scope o)
  | sum e n =>
    match Text.readInteger (e.eval scope o) with
    | .ok m => next (o.append (toString (m + n)).toList)
    | .error fault => .done (.error (.broken fault.message))
  | knows name => .knows (name.eval scope o) fun b => next (o.append (boolText b))
  | uninstall name => .uninstall (name.eval scope o) fun b => next (o.append (boolText b))
  | define name text =>
    let answer := text.eval scope o
    .install (name.eval scope o) (fun _ _ => .final answer) .template (next o)
  | store key value =>
    .writeStore (fun s => s.set (key.eval scope o) (value.eval scope o)) (next o)
  | count key =>
    .withStore (countUp (key.eval scope o)) fun n => next (o.append (toString n).toList)
  | retrieve key => .readStore fun s => next (o.append (retrieveText (key.eval scope o) s))
  | fetch key value =>
    .withStore (Store.fetchWith (key.eval scope o) fun s => (value.eval scope o, s)) fun t =>
      next (o.append t)
  | forget key =>
    .withStore (Store.remove (key.eval scope o)) fun b => next (o.append (boolText b))
  | storeSize => .readStore fun s => next (o.append (natText s.size))
  | queue moment key edits queued refused =>
    let edits := edits.map (Edit.map (Expr.eval scope o))
    let effect : Effect := fun s => edits.foldl (fun s edit => edit.apply s) s
    let reply (added : Bool) := next (o.append ((if added then queued else refused).eval scope o))
    match moment with
    | .passEnd => .atPassEnd (key.eval scope o) effect reply
    | .runEnd => .atRunEnd (key.eval scope o) effect reply

/-- Asks whether a condition holds, and goes on with the reply. -/
def Condition.action (scope : Scope) (o : Output) (next : Bool → Action) : Condition → Action
  | passBefore n => next (scope.around.info.index < n)
  | equal a b => next (a.eval scope o = b.eval scope o)
  | knows name => .knows (name.eval scope o) next
  | stored key => .readStore fun s => next (s.has (key.eval scope o))
  | hasPath => next scope.around.path?.isSome

/-- The action of a script, and after it what `next` does with the output. -/
def action : Script → Scope → Output → (Output → Action) → Action
  | stop, _, o, next => next o
  | step s rest, scope, o, next => s.action scope o fun o => rest.action scope o next
  | install name splitting body rest, scope, o, next =>
    .install (name.eval scope o)
      (fun call around => body.action ⟨call, around⟩ .start fun o => .done (.ok o.answer))
      splitting (rest.action scope o next)
  | branch condition yes no rest, scope, o, next =>
    condition.action scope o fun b =>
      if b then yes.action scope o fun o => rest.action scope o next
      else no.action scope o fun o => rest.action scope o next

/-- The filter that a script describes. -/
def filter (s : Script) : Filter := fun call around =>
  s.action ⟨call, around⟩ .start fun o => .done (.ok o.answer)

end Script

end TagMarkup
