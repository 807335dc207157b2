import TagMarkup.Proofs.Rendering.Walk
import TagMarkup.Rendering.Run

/-! Two runs of a template side by side. When related states of two responders give the same answers
and stay related, whatever answers come and wherever a pass ends, then the runs from related states
end the same way, with the same texts between their passes (`runFrom_simulates`). A property that
one responder keeps holds after all of its runs. -/

namespace TagMarkup

variable {σ τ : Type}

/-- States in the relation `R` give the same answers, and stay in it. -/
structure Responder.Simulates (r : Responder σ) (r' : Responder τ) (R : σ → τ → Prop) : Prop where
  fallback : ∀ s s', R s s' → r.fallback s = r'.fallback s'
  endPass : ∀ info s s', R s s' → R (r.endPass info s) (r'.endPass info s')
  endRun : ∀ outcome s s', R s s' → R (r.endRun outcome s) (r'.endRun outcome s')
  ask : ∀ info path? text s s', R s s' →
    (r.ask info path? text s).1 = (r'.ask info path? text s').1 ∧
      R (r.ask info path? text s).2 (r'.ask info path? text s').2

/-- The live texts are the same, and the states are in the relation `R`. -/
structure Alike (R : σ → τ → Prop) (live : Live σ) (live' : Live τ) : Prop where
  text : live'.text = live.text
  boundaries : live'.boundaries = live.boundaries
  growth : live'.growth = live.growth
  ready : live'.ready = live.ready
  state : R live.state live'.state

/-- The steps have the same result and do the same to the live text, and the states after them are
in the relation `R`. -/
def alike (R : σ → τ → Prop) : PassRelation σ τ where
  Near := Alike R
  Step live live' m m' :=
    (m.run live).1 = (m'.run live').1 ∧ Alike R (m.run live).2 (m'.run live').2
  text := Alike.text
  boundaries := Alike.boundaries
  growth := Alike.growth
  pure hn _ := ⟨rfl, hn⟩
  range hn _ _ := ⟨rfl, hn⟩
  get _ hk := hk
  bind {_ _ live live' m m' k k'} hm hk := by
    rw [run_bind, run_bind]
    obtain ⟨hresult, hnear⟩ := hm
    generalize m.run live = after at hresult hnear ⊢
    generalize m'.run live' = after' at hresult hnear ⊢
    obtain ⟨result, live⟩ := after
    obtain ⟨_, live'⟩ := after'
    cases hresult
    cases result with
    | error e => exact ⟨rfl, hnear⟩
    | ok a => exact hk a live live' hnear
  unready hn := ⟨rfl, hn.text, hn.boundaries, hn.growth, rfl, hn.state⟩
  edit hn _ _ _ := ⟨rfl, rfl, rfl, rfl, hn.ready, hn.state⟩

theorem answer_alike {R : σ → τ → Prop} {r : Responder σ} {r' : Responder τ} {info : PassInfo}
    (hask : ∀ path? text s s', R s s' →
      (r.ask info path? text s).1 = (r'.ask info path? text s').1 ∧
        R (r.ask info path? text s).2 (r'.ask info path? text s').2)
    (fallback : Fallback) {live : Live σ} {live' : Live τ} (hn : Alike R live live')
    (path? : Option Path) (text : Text) :
    (alike R).Step live live' (Pass.answer r info fallback path? text)
      (Pass.answer r' info fallback path? text) := by
  obtain ⟨hanswer, hstate⟩ := hask path? text live.state live'.state hn.state
  have hask : (alike R).Step live live' (Pass.ask r info path? text)
      (Pass.ask r' info path? text) :=
    ⟨congrArg Except.ok hanswer, hn.text, hn.boundaries, hn.growth, hn.ready, hstate⟩
  refine (alike R).bind hask fun asked live live' hn => ?_
  cases asked with
  | ok answer => exact (alike R).pure hn _
  | error cause =>
    cases fallback with
    | retry | passthrough => exact (alike R).pure hn _
    | abort => exact ⟨rfl, hn⟩

namespace Template

def passInfo (t : Template) (index : Nat) : PassInfo := ⟨index, t.depth, t.delimiters⟩

variable {t : Template} {r : Responder σ} {limit index : Nat} {scene : Scene}
  {fragments : List Text} {state : σ}

theorem runFrom_over (h : limit = 0 ∨ scene.ready = true) :
    t.runFrom r limit index scene fragments state =
      ⟨.ok ⟨fragments, scene.ready, index⟩, [],
        r.endRun ⟨fragments, scene.ready, index⟩ state⟩ := by
  unfold runFrom
  split
  next _ _ hready => simp [hready] at h
  next => rfl

theorem runFrom_stopped {e : PassError} {state' : σ} (hready : scene.ready = false)
    (h : scene.pass r (t.passInfo index) state = (.error e, state')) :
    t.runFrom r (limit + 1) index scene fragments state =
      ⟨.error (.ofPass index e), [], state'⟩ := by
  unfold passInfo at h
  unfold runFrom
  simp only [hready, h]

theorem runFrom_next {next : Scene} {state' : σ} (hready : scene.ready = false)
    (h : scene.pass r (t.passInfo index) state = (.ok next, state')) :
    let fs := Fragments.cut next.text next.boundaries
    let more := t.runFrom r limit (index + 1) next fs (r.endPass (t.passInfo index) state')
    t.runFrom r (limit + 1) index scene fragments state =
      ⟨more.result, fs :: more.intermediate, more.state⟩ := by
  intro fs more
  unfold passInfo at h
  rw [runFrom]
  · simp only [h]
    rfl
  · exact hready

end Template

section Runs

variable {R : σ → τ → Prop} {r : Responder σ} {r' : Responder τ} {s : σ} {s' : τ}

/-- For a pass, the same fallback and related answers are enough. -/
theorem pass_alike {info : PassInfo} (hf : r.fallback s = r'.fallback s')
    (hask : ∀ path? text s s', R s s' →
      (r.ask info path? text s).1 = (r'.ask info path? text s').1 ∧
        R (r.ask info path? text s).2 (r'.ask info path? text s').2)
    (hs : R s s') (scene : Scene) :
    (scene.pass r info s).1 = (scene.pass r' info s').1 ∧
      R (scene.pass r info s).2 (scene.pass r' info s').2 := by
  have hnear : Alike R ⟨scene.text, scene.boundaries, 0, true, s⟩
    ⟨scene.text, scene.boundaries, 0, true, s'⟩ := ⟨rfl, rfl, rfl, rfl, hs⟩
  obtain ⟨hresult, hafter⟩ :=
    (alike R).work (answer_alike hask (r.fallback s)) hnear scene.agenda
  unfold Scene.pass
  rw [← hf]
  dsimp only
  generalize (Pass.work r info (r.fallback s) scene.agenda).run
    ⟨scene.text, scene.boundaries, 0, true, s⟩ = after at hresult hafter ⊢
  generalize (Pass.work r' info (r.fallback s) scene.agenda).run
    ⟨scene.text, scene.boundaries, 0, true, s'⟩ = after' at hresult hafter ⊢
  obtain ⟨result, live⟩ := after
  obtain ⟨_, live'⟩ := after'
  cases hresult
  obtain ⟨htext, hboundaries, -, hready, hstate⟩ := hafter
  cases result with
  | error e => exact ⟨rfl, hstate⟩
  | ok agenda =>
    refine ⟨?_, hstate⟩
    dsimp only at htext hboundaries hready ⊢
    rw [htext, hboundaries, hready]

theorem pass_simulates (h : r.Simulates r' R) (hs : R s s') (info : PassInfo) (scene : Scene) :
    (scene.pass r info s).1 = (scene.pass r' info s').1 ∧
      R (scene.pass r info s).2 (scene.pass r' info s').2 :=
  pass_alike (h.fallback s s' hs) (h.ask info) hs scene

/-- What every answer keeps, a pass keeps. -/
theorem pass_keeps {P : σ → Prop} {info : PassInfo}
    (hask : ∀ path? text s, P s → P (r.ask info path? text s).2) (hs : P s) (scene : Scene) :
    P (scene.pass r info s).2 := by
  have hself : ∀ path? text s s', s = s' ∧ P s →
      (r.ask info path? text s).1 = (r.ask info path? text s').1 ∧
        (r.ask info path? text s).2 = (r.ask info path? text s').2 ∧
          P (r.ask info path? text s).2 := by
    rintro path? text s _ ⟨rfl, hs⟩
    exact ⟨rfl, rfl, hask path? text s hs⟩
  exact (pass_alike (R := fun s s' => s = s' ∧ P s) rfl hself ⟨rfl, hs⟩ scene).2.2

/-- The runs end the same way, with the same texts between their passes, and the states at the end
are in the relation `R`. -/
structure Run.Like (R : σ → τ → Prop) (run : Run σ) (run' : Run τ) : Prop where
  result : run.result = run'.result
  intermediate : run.intermediate = run'.intermediate
  state : R run.state run'.state

theorem runFrom_simulates (h : r.Simulates r' R) (hs : R s s') (t : Template) (limit index : Nat)
    (scene : Scene) (fragments : List Text) :
    Run.Like R (t.runFrom r limit index scene fragments s)
      (t.runFrom r' limit index scene fragments s') := by
  induction limit generalizing index scene fragments s s' with
  | zero =>
    rw [Template.runFrom_over (.inl rfl), Template.runFrom_over (.inl rfl)]
    exact ⟨rfl, rfl, h.endRun _ s s' hs⟩
  | succ limit ih =>
    cases hready : scene.ready with
    | true =>
      rw [Template.runFrom_over (.inr hready), Template.runFrom_over (.inr hready)]
      exact ⟨rfl, rfl, h.endRun _ s s' hs⟩
    | false =>
      obtain ⟨hresult, hstate⟩ := pass_simulates h hs (t.passInfo index) scene
      cases hpass : scene.pass r (t.passInfo index) s with
      | mk result state =>
      cases hpass' : scene.pass r' (t.passInfo index) s' with
      | mk result' state' =>
      rw [hpass, hpass'] at hresult hstate
      obtain rfl : result = result' := hresult
      cases result with
      | error e =>
        rw [Template.runFrom_stopped hready hpass, Template.runFrom_stopped hready hpass']
        exact ⟨rfl, rfl, hstate⟩
      | ok next =>
        rw [Template.runFrom_next hready hpass, Template.runFrom_next hready hpass']
        have hmore := ih (h.endPass (t.passInfo index) state state' hstate) (index + 1) next
          (Fragments.cut next.text next.boundaries)
        exact ⟨hmore.result, congrArg (_ :: ·) hmore.intermediate, hmore.state⟩

/-- What holds between passes, by their number, when it gives a property that answers keep and that
the end of a pass turns into it again. With an outcome the run ends after its last pass. -/
theorem runFrom_between {t : Template} (Between Within : Nat → σ → Prop)
    (hbegin : ∀ n s, Between n s → Within n s)
    (hask : ∀ n path? text s, Within n s → Within n (r.ask (t.passInfo n) path? text s).2)
    (hend : ∀ n s, Within n s → Between (n + 1) (r.endPass (t.passInfo n) s))
    {o : Outcome} {limit index : Nat} {scene : Scene} {fragments : List Text}
    (hs : Between index s)
    (ho : (t.runFrom r limit index scene fragments s).result = .ok o) :
    ∃ last, Between o.passes last ∧
      (t.runFrom r limit index scene fragments s).state = r.endRun o last := by
  induction limit generalizing index scene fragments s with
  | zero =>
    rw [Template.runFrom_over (.inl rfl)] at ho ⊢
    cases ho
    exact ⟨s, hs, rfl⟩
  | succ limit ih =>
    cases hready : scene.ready with
    | true =>
      rw [Template.runFrom_over (.inr hready)] at ho ⊢
      cases ho
      exact ⟨s, hs, rfl⟩
    | false =>
      have hwithin := pass_keeps (hask index) (hbegin index s hs) scene
      cases hpass : scene.pass r (t.passInfo index) s with
      | mk result state =>
      rw [hpass] at hwithin
      cases result with
      | error e =>
        rw [Template.runFrom_stopped hready hpass] at ho
        cases ho
      | ok next =>
        rw [Template.runFrom_next hready hpass] at ho ⊢
        exact ih (hend index state hwithin) ho

/-- The last that a responder hears of a run with an outcome is the outcome. -/
theorem Template.runFrom_endRun {t : Template} {o : Outcome} {limit index : Nat} {scene : Scene}
    {fragments : List Text} (ho : (t.runFrom r limit index scene fragments s).result = .ok o) :
    ∃ last, (t.runFrom r limit index scene fragments s).state = r.endRun o last := by
  obtain ⟨last, -, hlast⟩ := runFrom_between (fun _ _ => True) (fun _ _ => True)
    (fun _ _ _ => trivial) (fun _ _ _ _ _ => trivial) (fun _ _ _ => trivial) trivial ho
  exact ⟨last, hlast⟩

theorem runWith_simulates (h : r.Simulates r' R) (hs : R (r.startRun s) (r'.startRun s'))
    (t : Template) : Run.Like R (t.runWith r s) (t.runWith r' s') :=
  runFrom_simulates h hs t passLimit 0 t.scene t.fragments

/-- Whatever is asked and wherever a pass or the run ends, the property goes on to hold. -/
structure Responder.Keeps (r : Responder σ) (P : σ → Prop) : Prop where
  endPass : ∀ info s, P s → P (r.endPass info s)
  endRun : ∀ outcome s, P s → P (r.endRun outcome s)
  ask : ∀ info path? text s, P s → P (r.ask info path? text s).2

theorem Responder.Keeps.runWith {P : σ → Prop} (h : r.Keeps P) (hs : P (r.startRun s))
    (t : Template) : P (t.runWith r s).state := by
  have hself : r.Simulates r fun s s' => s = s' ∧ P s := by
    constructor
    · rintro s _ ⟨rfl, -⟩
      rfl
    · rintro info s _ ⟨rfl, hs⟩
      exact ⟨rfl, h.endPass info s hs⟩
    · rintro outcome s _ ⟨rfl, hs⟩
      exact ⟨rfl, h.endRun outcome s hs⟩
    · rintro info path? text s _ ⟨rfl, hs⟩
      exact ⟨rfl, rfl, h.ask info path? text s hs⟩
  exact (runWith_simulates hself ⟨rfl, hs⟩ t).state.2

end Runs

end TagMarkup
