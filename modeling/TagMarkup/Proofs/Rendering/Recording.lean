import TagMarkup.Proofs.Rendering.Simulation

/-! The history of a run. A recorded responder answers like the responder that it records and keeps
the visits: which text was asked about, for which path, and what came back. Recording changes
neither the result of a run nor the texts between its passes (`run_recorded`). -/

namespace TagMarkup

/-- What was asked in a pass, the fallback of the pass, and what came back. -/
structure Visit where
  info : PassInfo
  fallback : Fallback
  path? : Option Path
  text : Text
  answer : Except NoAnswer Answer
  deriving DecidableEq

namespace Visit

/-- The tag that a renderer hears of. -/
def tag? (v : Visit) : Option SingleTag := (SingleTag.ofText v.info.delimiters v.text).toOption

theorem ofText_of_tag? {v : Visit} {tag : SingleTag} (h : v.tag? = some tag) :
    SingleTag.ofText v.info.delimiters v.text = .ok tag := by
  unfold tag? at h
  cases hs : SingleTag.ofText v.info.delimiters v.text with
  | ok read =>
    rw [hs] at h
    cases h
    rfl
  | error e =>
    rw [hs] at h
    cases h

/-- The answer after the fallback, if the pass goes on. -/
def outcome? (v : Visit) : Option Answer :=
  match v.answer, v.fallback with
  | .ok answer, _ => some answer
  | .error _, .retry => some (.pending v.text)
  | .error _, .passthrough => some (.final v.text)
  | .error _, .abort => none

theorem outcome?_of_ok {v : Visit} {a : Answer} (h : v.answer = .ok a) : v.outcome? = some a := by
  rw [outcome?, h]

end Visit

/-- The fallback of the pass, the visits so far, the last one at the end, and the state of the
responder. -/
structure Record (σ : Type) where
  fallback : Fallback
  visits : List Visit
  state : σ

variable {σ τ : Type}

namespace Record

def start (r : Responder σ) (state : σ) : Record σ := ⟨r.fallback state, [], state⟩

/-- The record when the state has changed between two passes. -/
def resume (r : Responder σ) (record : Record σ) (state : σ) : Record σ :=
  ⟨r.fallback state, record.visits, state⟩

end Record

/-- The responder `r` with a record of its visits. -/
def Responder.recorded (r : Responder σ) : Responder (Record σ) where
  fallback record := r.fallback record.state
  startRun record := record.resume r (r.startRun record.state)
  endPass info record := record.resume r (r.endPass info record.state)
  endRun outcome record := record.resume r (r.endRun outcome record.state)
  ask info path? text record :=
    let asked := r.ask info path? text record.state
    (asked.1, ⟨record.fallback,
      record.visits ++ [⟨info, record.fallback, path?, text, asked.1⟩], asked.2⟩)

/-- The states of the responder `r'` are states of `r` with more in them, on which `r` does the
same. -/
structure Responder.Refines (r' : Responder τ) (r : Responder σ) (f : τ → σ) : Prop where
  fallback : ∀ s, r.fallback (f s) = r'.fallback s
  startRun : ∀ s, r.startRun (f s) = f (r'.startRun s)
  endPass : ∀ info s, r.endPass info (f s) = f (r'.endPass info s)
  endRun : ∀ outcome s, r.endRun outcome (f s) = f (r'.endRun outcome s)
  ask : ∀ info path? text s,
    r.ask info path? text (f s) = ((r'.ask info path? text s).1, f (r'.ask info path? text s).2)

theorem refines_recorded (r : Responder σ) : r.recorded.Refines r Record.state :=
  ⟨fun _ => rfl, fun _ => rfl, fun _ _ => rfl, fun _ _ => rfl, fun _ _ _ _ => rfl⟩

theorem Responder.Refines.simulates {r' : Responder τ} {r : Responder σ} {f : τ → σ}
    (h : r'.Refines r f) : r'.Simulates r fun s' s => s = f s' := by
  constructor
  · rintro s' _ rfl
    exact (h.fallback s').symm
  · rintro info s' _ rfl
    exact h.endPass info s'
  · rintro outcome s' _ rfl
    exact h.endRun outcome s'
  · rintro info path? text s' _ rfl
    rw [h.ask]
    exact ⟨rfl, rfl⟩

section Refining

variable {f : τ → σ} {r' : Responder τ} {r : Responder σ} {info : PassInfo}

def Run.map (f : τ → σ) (run : Run τ) : Run σ := ⟨run.result, run.intermediate, f run.state⟩

/-- What a responder has besides what `r` has does not show in a run. -/
theorem runWith_refines (h : r'.Refines r f) (t : Template) (state : τ) :
    t.runWith r (f state) = (t.runWith r' state).map f := by
  have hlike := runWith_simulates h.simulates (h.startRun state) t
  cases hrun : t.runWith r (f state) with
  | mk result intermediate last =>
  rw [hrun] at hlike
  obtain ⟨hresult, hintermediate, hlast⟩ := hlike
  simp only [Run.map, hresult, hintermediate, ← hlast]

/-- Recording changes neither how a run ends nor its texts. -/
theorem run_recorded (t : Template) (r : Responder σ) (state : σ) :
    t.runWith r state = (t.runWith r.recorded (.start r state)).map Record.state :=
  runWith_refines (refines_recorded r) t (.start r state)

end Refining

end TagMarkup
