import TagMarkup.Rendering.Pass

/-! Runs: passes over the text of a template until every tag is ready, or until the limit. -/

namespace TagMarkup

def passLimit : Nat := 50

/-- Why a run has no outcome: the pass that stopped, and why. -/
inductive RunError
  | aborted (pass : Nat) (cause : NoAnswer)
  | range (pass : Nat) (start stop : Int)
  deriving DecidableEq, Repr

namespace RunError

def ofPass (pass : Nat) : PassError → RunError
  | .noAnswer cause => aborted pass cause
  | .range start stop => range pass start stop

def message : RunError → String
  | aborted pass cause => s!"Rendering aborted in iteration {pass}: {cause.message}"
  | range pass start stop => s!"No text from {start} to {stop} in iteration {pass}"

end RunError

/-- A run: how it ended, the fragments after every pass, and the last state. -/
structure Run (σ : Type) where
  result : Except RunError Outcome
  intermediate : List (List Text)
  state : σ

namespace Template

variable {σ : Type}

/-- The template's text before the first pass. -/
def scene (t : Template) : Scene :=
  ⟨t.text, t.boundaries, Agenda.ofOutline t.outline, false⟩

/-- The passes from number `index` on, of which at most `limit` are made. -/
def runFrom (t : Template) (r : Responder σ) (limit index : Nat) (scene : Scene)
    (fragments : List Text) (state : σ) : Run σ :=
  match limit, scene.ready with
  | limit + 1, false =>
    let info : PassInfo := ⟨index, t.depth, t.delimiters⟩
    match scene.pass r info state with
    | (.error e, state) => ⟨.error (.ofPass index e), [], state⟩
    | (.ok scene, state) =>
      let fragments := Fragments.cut scene.text scene.boundaries
      let more := t.runFrom r limit (index + 1) scene fragments (r.endPass info state)
      { more with intermediate := fragments :: more.intermediate }
  | _, ready =>
    let outcome : Outcome := ⟨fragments, ready, index⟩
    ⟨.ok outcome, [], r.endRun outcome state⟩

def runWith (t : Template) (r : Responder σ) (state : σ) : Run σ :=
  t.runFrom r passLimit 0 t.scene t.fragments (r.startRun state)

def run (t : Template) (r : Renderer σ) (state : σ) : Run σ := t.runWith r.responder state

end Template

end TagMarkup
