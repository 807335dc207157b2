import TagMarkup.Rendering.Agenda
import TagMarkup.Rendering.Renderer

/-! One pass over a text. The regions of the agenda are visited from left to right and from the
inside out; the answer for a region takes its place in the live text at once, and the regions after
it are found by the bytes that the text has grown or shrunk by. A tag waits until nothing inside it
is left to do. -/

namespace TagMarkup

/-- Why a pass stops: a tag without an answer, or a region whose offsets do not cut the text. -/
inductive PassError
  | noAnswer (cause : NoAnswer)
  | range (start stop : Int)
  deriving DecidableEq, Repr

/-- The text in the middle of a pass, the boundaries of its fragments, the bytes it has grown by,
whether every answer so far was ready, and the state of the responder. -/
structure Live (σ : Type) where
  text : Text
  boundaries : List Nat
  growth : Int
  ready : Bool
  state : σ
  deriving DecidableEq

/-- A step of a pass. What was done before the pass stopped stays done. -/
abbrev PassM (σ : Type) := ExceptT PassError (StateM (Live σ))

namespace Pass

variable {σ : Type}

/-- Where an offset of the agenda is in the live text. -/
def locate (position : Nat) : PassM σ Nat := do
  let p : Int := position + (← get).growth
  if 0 ≤ p then return p.toNat else throw (.range p p)

def unready : PassM σ Unit := modify fun live => { live with ready := false }

/-- The answer for the text of a tag, if there is one. -/
def ask (r : Responder σ) (info : PassInfo) (path? : Option Path) (text : Text) :
    PassM σ (Except NoAnswer Answer) :=
  modifyGet fun live =>
    let asked := r.ask info path? text live.state
    (asked.1, { live with state := asked.2 })

/-- The answer for the text of a tag, by the fallback if there is none. -/
def answer (r : Responder σ) (info : PassInfo) (fallback : Fallback) (path? : Option Path)
    (text : Text) : PassM σ Answer := do
  match ← ask r info path? text, fallback with
  | .ok answer, _ => return answer
  | .error _, .retry => return .pending text
  | .error _, .passthrough => return .final text
  | .error cause, .abort => throw (.noAnswer cause)

/-- Puts a text in the place of the bytes from `start` to `stop`. -/
def replace (start stop : Nat) (new : Text) : PassM σ Unit := do
  let live ← get
  match live.text.replace? start stop new with
  | none => throw (.range start stop)
  | some text => set { live with
      text
      boundaries := live.boundaries.map (Fragments.move start stop new.bytes)
      growth := live.growth + (new.bytes - (stop - start : Nat) : Int) }

/-- Asks about the tag from `start` to `stop` of the live text and puts the answer in its place.
The result is what is left to do there: nothing after a ready answer, the same tag after an answer
that changed nothing, and otherwise the tags of the answer. -/
def settleTag (r : Responder σ) (info : PassInfo) (fallback : Fallback) (path? : Option Path)
    (start stop : Nat) : PassM σ Agenda := do
  match (← get).text.slice? start stop with
  | none => throw (.range start stop)
  | some text =>
    let answer ← answer r info fallback path? text
    if !answer.ready then unready
    if answer.text = text then
      return if answer.ready then .nil else .tree ⟨start, stop, .tag path?⟩ .nil
    else
      replace start stop answer.text
      return if answer.ready then .nil else Agenda.ofAnswer info.delimiters start answer.text

/-- What is left to do in a region between two offsets of the live text, when `inner` is left to do
inside it. -/
def settle (r : Responder σ) (info : PassInfo) (fallback : Fallback) (kind : RegionKind)
    (start stop : Nat) (inner : Agenda) : PassM σ Agenda :=
  match kind, inner with
  | .group, .nil => return .nil
  | .group, inner => return .tree ⟨start, stop, .group⟩ inner
  | .tag path?, .nil => settleTag r info fallback path? start stop
  | .tag path?, inner => do
    unready
    return .tree ⟨start, stop, .tag path?⟩ inner

/-- Works through an agenda, and gives the agenda for the next pass. -/
def work (r : Responder σ) (info : PassInfo) (fallback : Fallback) : Agenda → PassM σ Agenda
  | .nil => return .nil
  | .cons region inner rest => do
    let start ← locate region.start
    let inner ← work r info fallback inner
    let stop ← locate region.stop
    let left ← settle r info fallback region.kind start stop inner
    return left ++ (← work r info fallback rest)

end Pass

structure Scene where
  text : Text
  boundaries : List Nat
  agenda : Agenda
  ready : Bool

def Scene.pass {σ : Type} (r : Responder σ) (info : PassInfo) (scene : Scene) (state : σ) :
    Except PassError Scene × σ :=
  let live : Live σ := ⟨scene.text, scene.boundaries, 0, true, state⟩
  match (Pass.work r info (r.fallback state) scene.agenda).run live with
  | (.ok agenda, live) => (.ok ⟨live.text, live.boundaries, agenda, live.ready⟩, live.state)
  | (.error e, live) => (.error e, live.state)

end TagMarkup
