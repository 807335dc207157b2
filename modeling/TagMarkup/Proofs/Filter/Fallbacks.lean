import TagMarkup.Proofs.Filter.Manager
import TagMarkup.Proofs.Rendering.Placement
import TagMarkup.Proofs.Rendering.Stopping

/-! The runs of one host under the three fallbacks. Filters do not see the fallback, so the runs
begin alike: they are the same run if every tag gets an answer, and otherwise they part at the first
tag without one, where the run under `abort` ends (`fallbacks_agree`). -/

namespace TagMarkup

/-- What was asked in a pass, and what came back. -/
structure Exchange where
  info : PassInfo
  path? : Option Path
  text : Text
  answer : Except NoAnswer Answer

def Visit.exchange (v : Visit) : Exchange := ⟨v.info, v.path?, v.text, v.answer⟩

namespace Host

def withFallback (h : Host) (fallback : Fallback) : Host :=
  { h with manager := { h.manager with fallback } }

/-- Neither filters nor the end of a pass or a run see the fallback. -/
theorem stable_withFallback (fallback : Fallback) :
    Stable fun h h' => h' = h.withFallback fallback where
  live hr _ := by rw [hr]; rfl
  store hr := by rw [hr]; rfl
  passEnd hr := by rw [hr]; rfl
  runEnd hr := by rw [hr]; rfl
  insert hr _ _ := by rw [hr]; rfl
  erase hr _ := by rw [hr]; rfl
  changeStore hr _ := by rw [hr]; rfl
  withPassEnd hr _ := by rw [hr]; rfl
  withRunEnd hr _ := by rw [hr]; rfl
  reset hr := by rw [hr]; rfl

theorem startRun_withFallback (h : Host) (fallback : Fallback) :
    (h.withFallback fallback).startRun = h.startRun.withFallback fallback := by
  cases hm : h.manager.memoize with
  | true =>
    rw [startRun_of_memoize hm, startRun_of_memoize (h := h.withFallback fallback) hm]
    rfl
  | false =>
    rw [startRun_of_not_memoize hm, startRun_of_not_memoize (h := h.withFallback fallback) hm]
    rfl

end Host

namespace Record

def exchanges {σ : Type} (record : Record σ) : List Exchange := record.visits.map Visit.exchange

/-- The record of the same exchanges with a host under `fallback`. -/
def under (fallback : Fallback) (record : Record Host) : Record Host :=
  ⟨fallback, record.visits.map fun v => { v with fallback }, record.state.withFallback fallback⟩

@[simp] theorem exchanges_under (fallback : Fallback) (record : Record Host) :
    (record.under fallback).exchanges = record.exchanges :=
  List.map_map

@[simp] theorem under_under (fallback fallback' : Fallback) (record : Record Host) :
    (record.under fallback').under fallback = record.under fallback := by
  simp only [under, List.map_map]
  rfl

end Record

namespace Host

/-- A host under `fallback` does what it would do if all passes had that fallback. -/
theorem recorded_under (fallback : Fallback) :
    (renderer.responder.recorded.under fallback).Refines renderer.responder.recorded
      (Record.under fallback) := by
  constructor
  · intro record
    rfl
  · intro record
    show (record.under fallback).resume renderer.responder
      (record.state.withFallback fallback).startRun = _
    rw [startRun_withFallback]
    rfl
  · intro info record
    have hend : (record.state.withFallback fallback).endPass =
      record.state.endPass.withFallback fallback := (stable_withFallback fallback).endPass rfl
    show (record.under fallback).resume renderer.responder
      (record.state.withFallback fallback).endPass = _
    rw [hend]
    rfl
  · intro outcome record
    have hend : (record.state.withFallback fallback).endRun =
      record.state.endRun.withFallback fallback := (stable_withFallback fallback).endRun rfl
    show (record.under fallback).resume renderer.responder
      (record.state.withFallback fallback).endRun = _
    rw [hend]
    rfl
  · intro info path? text record
    obtain ⟨hanswer, hnext⟩ :=
      (stable_withFallback fallback).ask (h := record.state) rfl info path? text
    refine Prod.ext hanswer.symm ?_
    simp only [Responder.recorded, Responder.under, Record.under, List.map_append, List.map_cons,
      List.map_nil, ← hanswer, hnext]

variable (t : Template) (h : Host)

/-- The run under a fallback, with its exchanges. -/
def runUnder (fallback : Fallback) : Run (Record Host) :=
  t.runWith renderer.responder.recorded (.start renderer.responder (h.withFallback fallback))

theorem runUnder_eq (fallback : Fallback) :
    h.runUnder t fallback = (t.runWith (renderer.responder.recorded.under fallback)
      (.start renderer.responder h)).map (Record.under fallback) :=
  runWith_refines (recorded_under fallback) t (.start renderer.responder h)

variable {t h} {fallback : Fallback}

/-- Tags without an answer end a run only under `abort`. -/
theorem runUnder_completes (hf : fallback ≠ .abort) :
    ∃ o, (h.runUnder t fallback).result = .ok o := by
  rw [runUnder_eq]
  cases hresult : (t.runWith (renderer.responder.recorded.under fallback)
      (.start renderer.responder h)).result with
  | ok o => exact ⟨o, hresult⟩
  | error e =>
    obtain ⟨index, cause, rfl⟩ := Template.runWith_aborted hresult
    exact absurd hresult ((runWith_stops hf _).unstopped index cause)

theorem run_completes (hf : h.manager.fallback ≠ .abort) :
    ∃ o, (t.run renderer h).result = .ok o := by
  obtain ⟨o, ho⟩ := runUnder_completes (t := t) (h := h) hf
  refine ⟨o, ?_⟩
  rw [Template.run, run_recorded]
  exact ho

theorem runUnder_agrees (hf : fallback ≠ .abort) {o : Outcome}
    (ho : (h.runUnder t .abort).result = .ok o) :
    h.runUnder t fallback = (h.runUnder t .abort).map (Record.under fallback) := by
  rw [runUnder_eq] at ho
  rw [runUnder_eq, runUnder_eq, ((runWith_stops hf (.start renderer.responder h)).agree o ho).1]
  simp only [Run.map, Record.under_under]

/-- What is common to the run that `stopped`, in the pass with number `index`, and the run `whole`
that went on: the exchanges up to the first one that brought no answer. -/
structure PartsAt (t : Template) (index : Nat) (cause : NoAnswer)
    (stopped whole : Run (Record Host)) : Prop where
  exchanges : ∃ before last after, stopped.state.exchanges = before ++ [last] ∧
    whole.state.exchanges = before ++ last :: after ∧
    (∀ x ∈ before, ∃ answer, x.answer = .ok answer) ∧
    last.answer = .error cause ∧ last.info = t.passInfo index
  intermediate : stopped.intermediate <+: whole.intermediate ∧ stopped.intermediate.length = index

theorem runUnder_parts (hf : fallback ≠ .abort) {e : RunError}
    (he : (h.runUnder t .abort).result = .error e) :
    ∃ index cause, e = .aborted index cause ∧
      PartsAt t index cause (h.runUnder t .abort) (h.runUnder t fallback) := by
  obtain ⟨index, cause, rfl⟩ := Template.runWith_aborted he
  refine ⟨index, cause, rfl, ?_⟩
  rw [runUnder_eq] at he
  obtain ⟨hindex, hrefused, ⟨after, hafter⟩, hintermediate⟩ :=
    (runWith_stops hf (.start renderer.responder h)).aborted index cause he
  obtain ⟨before, last, hvisits, hanswered, hcause, hinfo⟩ := hrefused
  have hvisits : _ = before ++ [last] := hvisits
  rw [runUnder_eq, runUnder_eq]
  refine ⟨⟨before.map Visit.exchange, last.exchange, after.map Visit.exchange, ?_, ?_, ?_, hcause,
    hinfo⟩, hintermediate, ?_⟩
  · simp only [Run.map, Record.exchanges_under]
    rw [Record.exchanges, hvisits, List.map_append]
    rfl
  · simp only [Run.map, Record.exchanges_under]
    rw [Record.exchanges, ← hafter, hvisits, List.append_assoc, List.map_append]
    rfl
  · intro x hx
    obtain ⟨v, hv, rfl⟩ := List.mem_map.1 hx
    exact hanswered v hv
  · rw [hindex, Nat.zero_add]
    rfl

/-- The run of one host under the three fallbacks. Under `retry` and `passthrough` it has an
outcome. If it has one under `abort`, it is the same run under all of them, and if not, `abort` has
ended it at the first exchange that brought no answer, and up to that one the runs are alike. -/
theorem fallbacks_agree (t : Template) (h : Host) :
    (∀ fallback, t.run renderer (h.withFallback fallback) =
      (h.runUnder t fallback).map Record.state) ∧
    ∀ fallback ≠ Fallback.abort,
      (∃ o, (h.runUnder t fallback).result = .ok o) ∧
      (∀ o, (h.runUnder t .abort).result = .ok o →
        h.runUnder t fallback = (h.runUnder t .abort).map (Record.under fallback) ∧
          (h.runUnder t fallback).state.exchanges = (h.runUnder t .abort).state.exchanges) ∧
      ∀ e, (h.runUnder t .abort).result = .error e → ∃ index cause,
        e = .aborted index cause ∧
          PartsAt t index cause (h.runUnder t .abort) (h.runUnder t fallback) := by
  refine ⟨fun _ => run_recorded t _ _, fun fallback hf =>
    ⟨runUnder_completes hf, fun o ho => ?_, fun e he => runUnder_parts hf he⟩⟩
  have hsame := runUnder_agrees hf ho
  refine ⟨hsame, ?_⟩
  rw [hsame]
  exact Record.exchanges_under fallback _

end Host

end TagMarkup
