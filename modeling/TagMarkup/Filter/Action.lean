import TagMarkup.Rendering.Renderer
import TagMarkup.Store

/-! Filters and what they do. A filter takes a tag and its surroundings and gives an action: a
tree of requests to the manager that runs it, each followed by what the filter does with the
reply, down to the result.

Limitation: what a filter does depends on its tag, its surroundings and the replies alone, and an
effect changes the store of its manager alone. A filter that keeps a state of its own from tag to
tag outside the store, and an effect on the store of another manager, cannot be written. -/

namespace TagMarkup

/-- A change of a store that is made later. -/
abbrev Effect := Store → Store

/-- What a filter knows besides its tag. Tags that are first seen in an answer have no path. -/
structure Surroundings where
  path? : Option Path
  info : PassInfo

inductive Action
  /-- The end of the filter, with its result. -/
  | done (result : Except FilterError Answer)
  /-- Puts a filter under a name for the rest of the run. -/
  | install (name : Text) (filter : Call → Surroundings → Action) (splitting : SplitRule)
      (next : Action)
  /-- Takes away the filter under a name. The reply is whether there was one. -/
  | uninstall (name : Text) (next : Bool → Action)
  /-- Asks whether tags with a key find a filter. -/
  | knows (name : Text) (next : Bool → Action)
  | readStore (next : Store → Action)
  | writeStore (change : Effect) (next : Action)
  /-- Leaves an effect for the end of the pass. The reply is whether its key was free. -/
  | atPassEnd (key : Text) (effect : Effect) (next : Bool → Action)
  /-- Leaves an effect for the end of the run. The reply is whether its key was free. -/
  | atRunEnd (key : Text) (effect : Effect) (next : Bool → Action)

/-- What answers for the tags with one key. -/
abbrev Filter := Call → Surroundings → Action

namespace Action

/-- The filter answers with a text that is final. -/
def final (text : Text) : Action := done (.ok (.final text))

/-- The filter answers with a text that is looked at again in the next pass. -/
def pending (text : Text) : Action := done (.ok (.pending text))

/-- The filter refuses, for a reason. -/
def refuse (reason : Text) : Action := done (.error (.refused reason))

/-- Changes the store in a way that gives a reply. -/
def withStore {α : Type} (change : Store → α × Store) (next : α → Action) : Action :=
  readStore fun s => writeStore (fun s => (change s).2) (next (change s).1)

end Action

end TagMarkup
