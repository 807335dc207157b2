import TagMarkup.Fallback
import TagMarkup.Tag.Single
import TagMarkup.Template

/-! Renderers: what answers for the tags of a template. A renderer keeps a state of its own; it is
asked about one tag at a time and told when a run starts, when a pass ends and when the run ends. A
responder is the same for the texts of tags, before they are read. -/

namespace TagMarkup

/-- The text that takes the place of a tag. If it is not ready, the tags in it are looked at in the
next pass. -/
structure Answer where
  text : Text
  ready : Bool
  deriving DecidableEq, Repr

namespace Answer

def final (text : Text) : Answer := ⟨text, true⟩

def pending (text : Text) : Answer := ⟨text, false⟩

end Answer

/-- Why a filter gave no answer: it says so itself, or something it used failed. -/
inductive FilterError
  | refused (reason : Text)
  | broken (cause : String)
  deriving DecidableEq, Repr

def FilterError.message : FilterError → String
  | refused reason => String.ofList reason
  | broken cause => cause

/-- Why there is no answer for a tag. -/
inductive NoAnswer
  | unknownKey (key : Text)
  | filter (key : Text) (e : FilterError)
  | markup (e : MarkupError)
  deriving DecidableEq, Repr

def NoAnswer.message : NoAnswer → String
  | unknownKey key => s!"No filter registered for '{String.ofList key}'"
  | filter key e => s!"Filter '{String.ofList key}' failed: {e.message}"
  | markup e => s!"Tag text no longer parses: {e.message}"

/-- What all tags of one pass have in common. -/
structure PassInfo where
  index : Nat
  depth : Depth
  delimiters : Delimiters
  deriving DecidableEq

/-- How a run ended: one text for each fragment of the template, whether every tag was ready, and
the number of passes. -/
structure Outcome where
  fragments : List Text
  ready : Bool
  passes : Nat
  deriving DecidableEq, Repr

/-- What a run tells besides asking for answers, and the fallback for tags that get none. All of it
may change the state, which is in `σ`. -/
structure Hooks (σ : Type) where
  fallback : σ → Fallback := fun _ => .retry
  startRun : σ → σ := id
  endPass : PassInfo → σ → σ := fun _ => id
  endRun : Outcome → σ → σ := fun _ => id

/-- What answers for the text of a tag, whether it can be read or not. Tags of the template's
outline come with their path. -/
structure Responder (σ : Type) extends Hooks σ where
  ask : PassInfo → Option Path → Text → σ → Except NoAnswer Answer × σ

/-- What answers for tags. Only `answer` has to be given. -/
structure Renderer (σ : Type) extends Hooks σ where
  answer : PassInfo → Option Path → SingleTag → σ → Except NoAnswer Answer × σ

/-- A renderer never hears of a text that is no single tag. -/
def Renderer.responder {σ : Type} (r : Renderer σ) : Responder σ where
  toHooks := r.toHooks
  ask info path? text state :=
    match SingleTag.ofText info.delimiters text with
    | .error e => (.error (.markup e), state)
    | .ok tag => r.answer info path? tag state

end TagMarkup
