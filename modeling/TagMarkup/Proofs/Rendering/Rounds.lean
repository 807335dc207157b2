import TagMarkup.Proofs.Patchwork.Steady
import TagMarkup.Proofs.Rendering.Boundaries
import TagMarkup.Proofs.Rendering.Refinement

/-! Runs told in patchworks, pass by pass. What a run ends with follows from the passes over
patchworks: the fragments that are cut out of its last text make up that text. -/

namespace TagMarkup

open Relation (ReflTransGen)

variable {σ : Type} {r : Responder σ} {info : PassInfo} {fallback : Fallback} {scene scene' : Scene}
  {state state' : σ}

/-- The regions of the agenda stand in the text, and the boundaries cut it. -/
structure Scene.Sound (scene : Scene) : Prop where
  regions : ∃ p : Patchwork, p.Solid ∧ p.text = scene.text ∧ p.agenda 0 = scene.agenda
  cuts : Fragments.Cuts scene.text scene.boundaries

theorem Template.sound_scene (t : Template) : t.scene.Sound := by
  obtain ⟨p, htext, hdepicts, hagenda⟩ := t.exists_patchwork
  exact ⟨⟨_, Patchwork.solid_label hdepicts [] 0, (p.text_label ..).trans htext, hagenda⟩,
    Fragments.cuts_boundaries t.fragments⟩

theorem Moment.Fitted.steps {m m' : Moment σ} (h : m.Fitted)
    (hcuts : Fragments.Cuts m.live.text m.live.boundaries)
    (hs : ReflTransGen (Moment.Step r info fallback) m m') :
    m'.Fitted ∧ Fragments.Cuts m'.live.text m'.live.boundaries := by
  induction hs with
  | refl => exact ⟨h, hcuts⟩
  | tail _ hstep ih =>
    obtain ⟨hfitted, hedits⟩ := ih.1.step hstep
    exact ⟨hfitted, hedits.cuts ih.2⟩

theorem Scene.Sound.pass (h : scene.Sound)
    (hpass : scene.pass r info state = (.ok scene', state')) : scene'.Sound := by
  obtain ⟨⟨p, hp, htext, hagenda⟩, hcuts⟩ := h
  have hplays : Plays r info (r.fallback state) _ _ _ _ :=
    work_plays scene.agenda ⟨scene.text, scene.boundaries, 0, true, state⟩ [] .nil
  unfold Plays at hplays
  unfold Scene.pass at hpass
  dsimp only at hpass
  generalize (Pass.work r info (r.fallback state) scene.agenda).run
    ⟨scene.text, scene.boundaries, 0, true, state⟩ = result at hplays hpass
  obtain ⟨e | out, live⟩ := result
  · cases hpass
  · cases hpass
    obtain ⟨hfitted, hcuts⟩ := (fitted_start state hp htext hagenda).steps hcuts hplays
    exact ⟨hfitted.scene ⟨rfl, rfl⟩, hcuts⟩

/-- The pass that a pass over a patchwork tells of. -/
theorem Scene.Sound.exists_pass (h : scene.Sound) {p q : Patchwork} {ready : Bool}
    (htext : p.text = scene.text) (hagenda : p.agenda 0 = scene.agenda)
    (hpass : p.pass r info state = (.ok (q, ready), state')) : ∃ scene' : Scene,
      scene.pass r info state = (.ok scene', state') ∧ scene'.Sound ∧ q.text = scene'.text ∧
        q.agenda 0 = scene'.agenda ∧ scene'.ready = ready := by
  have hflat := scene.pass_agrees r info p state htext hagenda
  rw [hpass] at hflat
  obtain ⟨boundaries, hflat⟩ := hflat
  exact ⟨_, hflat, h.pass hflat, rfl, rfl, rfl⟩

namespace Patchwork

variable {p q p' q' : Patchwork} {s s' s'' : Standing σ} {path? : Option Path} {t : Text}

/-- A part of a patchwork is worked through before what is behind it. -/
theorem run_work_append (hp : (work r info fallback p).run s = (.ok p', s'))
    (hq : (work r info fallback q).run s' = (.ok q', s'')) :
    (work r info fallback (p ++ q)).run s = (.ok (p' ++ q'), s'') := by
  rw [work_append, run_bind, hp]
  dsimp only
  rw [run_bind, hq]
  rfl

theorem work_tag (path? : Option Path) (t : Text) :
    work r info fallback (one (.tag path?) (plain t)) = settleTag r info fallback path? t := by
  simp [one, work, settle]

theorem run_settleTag {a : Answer}
    (h : (answer r info fallback path? t).run s = (.ok a, s')) :
    (settleTag r info fallback path? t).run s =
      (.ok (settledTag info.delimiters (fun _ => a) path? t), ⟨s'.ready && a.ready, s'.state⟩) := by
  unfold settleTag settledTag
  rw [run_bind, h]
  dsimp only
  cases hready : a.ready with
  | true => simp; rfl
  | false =>
    by_cases heq : a.text = t
    · simp [heq]; rfl
    · simp [heq]; rfl

theorem run_ask {reply : Except NoAnswer Answer}
    (h : r.ask info path? t s.state = (reply, state')) :
    (ask r info path? t).run s = (.ok reply, ⟨s.ready, state'⟩) := by
  show (Except.ok (r.ask info path? t s.state).1, _) = _
  rw [h]

/-- What an answer makes of a tag. -/
theorem run_work_answered (fallback : Fallback) {a : Answer}
    (h : r.ask info path? t s.state = (.ok a, state')) :
    (work r info fallback (one (.tag path?) (plain t))).run s =
      (.ok (settledTag info.delimiters (fun _ => a) path? t), ⟨s.ready && a.ready, state'⟩) := by
  have hanswer : (answer r info fallback path? t).run s = (.ok a, ⟨s.ready, state'⟩) := by
    unfold answer
    rw [run_bind, run_ask h]
    rfl
  rw [work_tag, run_settleTag hanswer]

/-- A tag without an answer is kept for the next pass. -/
theorem run_work_retried {cause : NoAnswer}
    (h : r.ask info path? t s.state = (.error cause, state')) :
    (work r info .retry (one (.tag path?) (plain t))).run s =
      (.ok (one (.tag path?) (plain t)), ⟨false, state'⟩) := by
  have hanswer : (answer r info .retry path? t).run s = (.ok (.pending t), ⟨s.ready, state'⟩) := by
    unfold answer
    rw [run_bind, run_ask h]
    rfl
  rw [work_tag, run_settleTag hanswer]
  simp [settledTag, Answer.pending]

theorem pass_of_work {ready : Bool}
    (h : (work r info (r.fallback state) p).run ⟨true, state⟩ = (.ok q, ⟨ready, state'⟩)) :
    p.pass r info state = (.ok (q, ready), state') := by
  unfold pass
  rw [h]

end Patchwork

namespace Template

variable {t : Template} {limit index passes : Nat} {p q : Patchwork} {text : Text}

/-- From the pass with a number on, the passes over a patchwork go on until all is ready. They leave
a text, and with the last one of them the run has made so many passes. -/
inductive Rounds (t : Template) (r : Responder σ) (text : Text) (passes : Nat) :
    Nat → Patchwork → σ → Prop
  | last {index : Nat} {p q : Patchwork} {state state' : σ}
    (pass : p.pass r (t.passInfo index) state = (.ok (q, true), state')) (left : q.text = text)
    (count : index + 1 = passes) : Rounds t r text passes index p state
  | next {index : Nat} {p q : Patchwork} {state state' : σ}
    (pass : p.pass r (t.passInfo index) state = (.ok (q, false), state'))
    (more : Rounds t r text passes (index + 1) q (r.endPass (t.passInfo index) state')) :
    Rounds t r text passes index p state

theorem Rounds.lt (h : t.Rounds r text passes index p state) : index < passes := by
  induction h with
  | last _ _ count => omega
  | next _ _ ih => omega

/-- The run ends with the text and the number of passes that the patchworks come to. -/
theorem runFrom_rounds (h : t.Rounds r text passes index p state) (limit : Nat)
    (hlimit : passes ≤ index + limit) {scene : Scene} (fragments : List Text)
    (hready : scene.ready = false) (hsound : scene.Sound) (htext : p.text = scene.text)
    (hagenda : p.agenda 0 = scene.agenda) :
    ∃ o, (t.runFrom r limit index scene fragments state).result = .ok o ∧ o.ready = true ∧
      o.fragments.flatten = text ∧ o.passes = passes := by
  induction h generalizing limit scene fragments with
  | last pass left count =>
    obtain ⟨limit, rfl⟩ : ∃ n, limit = n + 1 := ⟨limit - 1, by omega⟩
    obtain ⟨scene', hpass, hsound', htext', -, hready'⟩ := hsound.exists_pass htext hagenda pass
    rw [runFrom_next hready hpass, runFrom_over (.inr hready')]
    exact ⟨_, rfl, hready', hsound'.cuts.flatten.trans (htext'.symm.trans left), count⟩
  | next pass more ih =>
    have hlt := more.lt
    obtain ⟨limit, rfl⟩ : ∃ n, limit = n + 1 := ⟨limit - 1, by omega⟩
    obtain ⟨scene', hpass, hsound', htext', hagenda', hready'⟩ :=
      hsound.exists_pass htext hagenda pass
    rw [runFrom_next hready hpass]
    exact ih limit (by omega) _ hready' hsound' htext' hagenda'

theorem runWith_rounds (h : t.Rounds r text passes 0 p (r.startRun state))
    (hlimit : passes ≤ passLimit) (htext : p.text = t.scene.text)
    (hagenda : p.agenda 0 = t.scene.agenda) :
    ∃ o, (t.runWith r state).result = .ok o ∧ o.ready = true ∧ o.fragments.flatten = text ∧
      o.passes = passes :=
  runFrom_rounds h passLimit (by omega) t.fragments rfl t.sound_scene htext hagenda

end Template

end TagMarkup
