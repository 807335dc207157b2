import TagMarkup.Proofs.Rendering.Recording

/-! A run that stops at the first tag without an answer, beside a run that goes on. Up to that tag
they do the same, and if there is none, they are the same run. The run that goes on never stops for
want of an answer, and has made the visits of the other one first (`runFrom_stops`). -/

namespace TagMarkup

variable {σ α β : Type}

/-- The responder with one fallback for all passes. -/
def Responder.under (r : Responder σ) (fallback : Fallback) : Responder σ :=
  { r with fallback := fun _ => fallback }

namespace Record

variable {a b c : Record σ} {cause : NoAnswer} {info : PassInfo}

/-- Between the records there were visits only that got an answer. -/
def Answered (a b : Record σ) : Prop :=
  ∃ vs, b.visits = a.visits ++ vs ∧ ∀ v ∈ vs, ∃ answer, v.answer = .ok answer

/-- Between the records there was a visit in the pass `info` that got no answer, and before it only
visits that got one. -/
def Refused (info : PassInfo) (cause : NoAnswer) (a b : Record σ) : Prop :=
  ∃ vs v, b.visits = a.visits ++ (vs ++ [v]) ∧ (∀ u ∈ vs, ∃ answer, u.answer = .ok answer) ∧
    v.answer = .error cause ∧ v.info = info

theorem Answered.refl (a : Record σ) : Answered a a := ⟨[], by simp, by simp⟩

theorem Answered.trans (h : Answered a b) (h' : Answered b c) : Answered a c := by
  obtain ⟨vs, hvs, hanswered⟩ := h
  obtain ⟨ws, hws, hanswered'⟩ := h'
  refine ⟨vs ++ ws, by rw [hws, hvs, List.append_assoc], fun v hv => ?_⟩
  rcases List.mem_append.1 hv with hv | hv
  · exact hanswered v hv
  · exact hanswered' v hv

theorem Answered.refused (h : Answered a b) (h' : Refused info cause b c) :
    Refused info cause a c := by
  obtain ⟨vs, hvs, hanswered⟩ := h
  obtain ⟨ws, v, hws, hanswered', hcause, hinfo⟩ := h'
  refine ⟨vs ++ ws, v, by rw [hws, hvs]; simp, fun u hu => ?_, hcause, hinfo⟩
  rcases List.mem_append.1 hu with hu | hu
  · exact hanswered u hu
  · exact hanswered' u hu

end Record

/-- The step `whole` does what `stopped` does, but goes on where that one stops for want of an
answer. -/
structure Stops (info : PassInfo) (live : Live (Record σ)) (stopped whole : PassM (Record σ) α) :
    Prop where
  onward : live.state.visits <+: (whole.run live).2.state.visits
  unstopped : ∀ cause, (whole.run live).1 ≠ .error (.noAnswer cause)
  agree : match stopped.run live with
    | (.ok a, after) => whole.run live = (.ok a, after) ∧ live.state.Answered after.state
    | (.error (.noAnswer cause), after) => live.state.Refused info cause after.state ∧
      after.state.visits <+: (whole.run live).2.state.visits
    | (.error (.range _ _), _) => True

section Steps

variable {r : Responder σ} {info : PassInfo} {fallback : Fallback} {live : Live (Record σ)}

theorem Stops.same {m : PassM (Record σ) α} {a : α} {after : Live (Record σ)}
    (h : m.run live = (.ok a, after)) (hv : after.state.visits = live.state.visits) :
    Stops info live m m := by
  refine ⟨⟨[], by rw [h, hv, List.append_nil]⟩, ?_, ?_⟩
  · rw [h]
    exact fun _ => nofun
  · rw [h]
    exact ⟨rfl, [], by simp [hv], by simp⟩

theorem Stops.bind {m m' : PassM (Record σ) α} {k k' : α → PassM (Record σ) β}
    (h : Stops info live m m') (hk : ∀ a live, Stops info live (k a) (k' a)) :
    Stops info live (m >>= k) (m' >>= k') := by
  -- wherever the second step goes on to, the visits before are kept
  have hwhole : (m'.run live).2.state.visits <+: ((m' >>= k').run live).2.state.visits ∧
      ∀ cause, ((m' >>= k').run live).1 ≠ .error (.noAnswer cause) := by
    have hunstopped := h.unstopped
    rw [run_bind]
    generalize m'.run live = result at hunstopped ⊢
    obtain ⟨e | a, live'⟩ := result
    · exact ⟨List.prefix_rfl, fun cause heq => hunstopped cause (congrArg Except.error
        (Except.error.inj heq))⟩
    · exact ⟨(hk a live').onward, (hk a live').unstopped⟩
  refine ⟨h.onward.trans hwhole.1, hwhole.2, ?_⟩
  have hagree := h.agree
  rw [run_bind m k]
  generalize m.run live = result at hagree ⊢
  obtain ⟨(⟨cause⟩ | ⟨start, stop⟩) | a, live'⟩ := result
  · exact ⟨hagree.1, hagree.2.trans hwhole.1⟩
  · trivial
  · obtain ⟨hm', hanswered⟩ := hagree
    have hnext := (hk a live').agree
    rw [run_bind m' k', hm']
    simp only
    generalize (k a).run live' = result at hnext ⊢
    obtain ⟨(⟨cause⟩ | ⟨start, stop⟩) | b, live''⟩ := result
    · exact ⟨hanswered.refused hnext.1, hnext.2⟩
    · trivial
    · exact ⟨hnext.1, hanswered.trans hnext.2⟩

/-- Both passes are at the same moment until the one stops. -/
def stops (info : PassInfo) : PassRelation (Record σ) (Record σ) where
  Near live live' := live' = live
  Step live _ m m' := Stops info live m m'
  text hn := by rw [hn]
  boundaries hn := by rw [hn]
  growth hn := by rw [hn]
  pure _ _ := .same rfl rfl
  range _ _ _ := ⟨List.prefix_rfl, fun _ => nofun, trivial⟩
  get hn hk := by
    subst hn
    exact ⟨hk.onward, hk.unstopped, hk.agree⟩
  bind hm hk := hm.bind fun a live => hk a live live rfl
  unready _ := .same rfl rfl
  edit hn _ _ _ := by
    subst hn
    exact .same rfl rfl

theorem answer_stops (hf : fallback ≠ .abort) (path? : Option Path) (text : Text) :
    Stops info live (Pass.answer (r.recorded.under .abort) info .abort path? text)
      (Pass.answer (r.recorded.under fallback) info fallback path? text) := by
  let asked := r.ask info path? text live.state.state
  let v : Visit := ⟨info, live.state.fallback, path?, text, asked.1⟩
  let after : Live (Record σ) :=
    { live with state := ⟨live.state.fallback, live.state.visits ++ [v], asked.2⟩ }
  have hask (f : Fallback) :
      (Pass.ask (r.recorded.under f) info path? text).run live = (.ok asked.1, after) := rfl
  have honward : live.state.visits <+: after.state.visits := List.prefix_append _ _
  cases hasked : asked.1 with
  | ok answer =>
    have hrun (f : Fallback) :
        (Pass.answer (r.recorded.under f) info f path? text).run live = (.ok answer, after) := by
      rw [Pass.answer, run_bind, hask, hasked]
      rfl
    refine ⟨?_, ?_, ?_⟩
    · rw [hrun]
      exact honward
    · rw [hrun]
      exact fun _ => nofun
    · rw [hrun, hrun]
      exact ⟨rfl, [v], rfl, by simpa using ⟨answer, hasked⟩⟩
  | error cause =>
    have hstopped : (Pass.answer (r.recorded.under .abort) info .abort path? text).run live =
        (.error (.noAnswer cause), after) := by
      rw [Pass.answer, run_bind, hask, hasked]
      rfl
    obtain ⟨answer, hwhole⟩ : ∃ answer,
        (Pass.answer (r.recorded.under fallback) info fallback path? text).run live =
          (.ok answer, after) := by
      rw [Pass.answer, run_bind, hask, hasked]
      cases fallback with
      | retry => exact ⟨_, rfl⟩
      | passthrough => exact ⟨_, rfl⟩
      | abort => exact absurd rfl hf
    refine ⟨?_, ?_, ?_⟩
    · rw [hwhole]
      exact honward
    · rw [hwhole]
      exact fun _ => nofun
    · rw [hstopped, hwhole]
      exact ⟨⟨[], v, rfl, by simp, hasked, rfl⟩, List.prefix_rfl⟩

end Steps

section Passes

variable {r : Responder σ} {info : PassInfo} {fallback : Fallback} {t : Template}

theorem pass_stops (hf : fallback ≠ .abort) (scene : Scene) (record : Record σ) :
    record.visits <+: (scene.pass (r.recorded.under fallback) info record).2.visits ∧
      (∀ cause, (scene.pass (r.recorded.under fallback) info record).1 ≠
        .error (.noAnswer cause)) ∧
      match scene.pass (r.recorded.under .abort) info record with
      | (.ok next, after) =>
        scene.pass (r.recorded.under fallback) info record = (.ok next, after) ∧
          record.Answered after
      | (.error (.noAnswer cause), after) => record.Refused info cause after ∧
        after.visits <+: (scene.pass (r.recorded.under fallback) info record).2.visits
      | (.error (.range _ _), _) => True := by
  have hwork : Stops info ⟨scene.text, scene.boundaries, 0, true, record⟩
    (Pass.work (r.recorded.under .abort) info .abort scene.agenda)
    (Pass.work (r.recorded.under fallback) info fallback scene.agenda) :=
    (stops info).work (fun _ path? text => answer_stops hf path? text) rfl scene.agenda
  have hfallback (f : Fallback) : (r.recorded.under f).fallback record = f := rfl
  obtain ⟨honward, hunstopped, hagree⟩ := hwork
  unfold Scene.pass
  simp only [hfallback]
  generalize (Pass.work (r.recorded.under fallback) info fallback scene.agenda).run
    ⟨scene.text, scene.boundaries, 0, true, record⟩ = whole at honward hunstopped hagree ⊢
  generalize (Pass.work (r.recorded.under .abort) info .abort scene.agenda).run
    ⟨scene.text, scene.boundaries, 0, true, record⟩ = stopped at hagree ⊢
  obtain ⟨wholeError | wholeLeft, wholeLive⟩ := whole
  · refine ⟨honward, fun cause heq => hunstopped cause ?_, ?_⟩
    · exact congrArg Except.error (Except.error.inj heq)
    · obtain ⟨(⟨cause⟩ | ⟨start, stop⟩) | left, live⟩ := stopped
      · exact hagree
      · trivial
      · cases hagree.1
  · refine ⟨honward, fun _ => nofun, ?_⟩
    obtain ⟨(⟨cause⟩ | ⟨start, stop⟩) | left, live⟩ := stopped
    · exact hagree
    · trivial
    · obtain ⟨⟨⟩, hanswered⟩ := hagree
      exact ⟨rfl, hanswered⟩

/-- The run `stopped` beside the run `whole`, from the pass with number `index` and from a record
on. -/
structure Template.RunStops (t : Template) (index : Nat) (record : Record σ)
    (stopped whole : Run (Record σ)) : Prop where
  onward : record.visits <+: whole.state.visits
  unstopped : ∀ i cause, whole.result ≠ .error (.aborted i cause)
  agree : ∀ o, stopped.result = .ok o → whole = stopped ∧ record.Answered stopped.state
  aborted : ∀ i cause, stopped.result = .error (.aborted i cause) →
    i = index + stopped.intermediate.length ∧
      record.Refused (t.passInfo i) cause stopped.state ∧
      stopped.state.visits <+: whole.state.visits ∧
      stopped.intermediate <+: whole.intermediate

theorem runFrom_stops (hf : fallback ≠ .abort) (limit index : Nat) (scene : Scene)
    (fragments : List Text) (record : Record σ) :
    t.RunStops index record
      (t.runFrom (r.recorded.under .abort) limit index scene fragments record)
      (t.runFrom (r.recorded.under fallback) limit index scene fragments record) := by
  induction limit generalizing index scene fragments record with
  | zero =>
    rw [Template.runFrom_over (.inl rfl), Template.runFrom_over (.inl rfl)]
    exact ⟨List.prefix_rfl, fun _ _ => nofun, fun _ _ => ⟨rfl, .refl record⟩, fun _ _ => nofun⟩
  | succ limit ih =>
    cases hready : scene.ready with
    | true =>
      rw [Template.runFrom_over (.inr hready), Template.runFrom_over (.inr hready)]
      exact ⟨List.prefix_rfl, fun _ _ => nofun, fun _ _ => ⟨rfl, .refl record⟩, fun _ _ => nofun⟩
    | false =>
      obtain ⟨honward, hunstopped, hagree⟩ :=
        pass_stops hf scene record
      -- the run that goes on keeps the visits of its first pass, whatever comes after it
      have hwhole : (scene.pass (r.recorded.under fallback) (t.passInfo index) record).2.visits <+:
          (t.runFrom (r.recorded.under fallback) (limit + 1) index scene fragments
            record).state.visits ∧
          ∀ i cause, (t.runFrom (r.recorded.under fallback) (limit + 1) index scene fragments
            record).result ≠ .error (.aborted i cause) := by
        cases hpass : scene.pass (r.recorded.under fallback) (t.passInfo index) record with
        | mk result after =>
        rw [hpass] at hunstopped
        cases result with
        | error e =>
          rw [Template.runFrom_stopped hready hpass]
          cases e with
          | noAnswer cause => exact absurd rfl (hunstopped cause)
          | range start stop => exact ⟨List.prefix_rfl, fun _ _ => nofun⟩
        | ok next =>
          rw [Template.runFrom_next hready hpass]
          have hmore := ih (index + 1) next (Fragments.cut next.text next.boundaries)
            ((r.recorded.under fallback).endPass (t.passInfo index) after)
          exact ⟨hmore.onward, hmore.unstopped⟩
      refine ⟨honward.trans hwhole.1, hwhole.2, ?_, ?_⟩
      · intro o ho
        cases hpass : scene.pass (r.recorded.under .abort) (t.passInfo index) record with
        | mk result after =>
        rw [hpass] at hagree
        cases result with
        | error e =>
          rw [Template.runFrom_stopped hready hpass] at ho
          cases ho
        | ok next =>
          obtain ⟨hpass', hanswered⟩ := hagree
          rw [Template.runFrom_next hready hpass] at ho ⊢
          rw [Template.runFrom_next hready hpass']
          have hmore := ih (index + 1) next (Fragments.cut next.text next.boundaries)
            (r.recorded.endPass (t.passInfo index) after)
          obtain ⟨hsame, hanswered'⟩ := hmore.agree o ho
          exact ⟨congrArg (fun more : Run (Record σ) =>
            (⟨more.result, _ :: more.intermediate, more.state⟩ : Run (Record σ))) hsame,
            hanswered.trans hanswered'⟩
      · intro i cause hi
        cases hpass : scene.pass (r.recorded.under .abort) (t.passInfo index) record with
        | mk result after =>
        rw [hpass] at hagree
        cases result with
        | error e =>
          rw [Template.runFrom_stopped hready hpass] at hi ⊢
          cases e with
          | range start stop => cases hi
          | noAnswer reason =>
            obtain ⟨rfl, rfl⟩ : index = i ∧ reason = cause := by
              cases hi
              exact ⟨rfl, rfl⟩
            exact ⟨rfl, hagree.1, hagree.2.trans hwhole.1, List.nil_prefix⟩
        | ok next =>
          obtain ⟨hpass', hanswered⟩ := hagree
          rw [Template.runFrom_next hready hpass] at hi ⊢
          rw [Template.runFrom_next hready hpass']
          have hmore := ih (index + 1) next (Fragments.cut next.text next.boundaries)
            ((r.recorded.under .abort).endPass (t.passInfo index) after)
          obtain ⟨hindex, hrefused, hvisits, htexts⟩ := hmore.aborted i cause hi
          refine ⟨?_, hanswered.refused hrefused, hvisits, List.prefix_cons_inj _ |>.2 htexts⟩
          rw [hindex, List.length_cons]
          omega

theorem runWith_stops (hf : fallback ≠ .abort) (record : Record σ) :
    t.RunStops 0 (r.recorded.startRun record) (t.runWith (r.recorded.under .abort) record)
      (t.runWith (r.recorded.under fallback) record) :=
  runFrom_stops hf passLimit 0 t.scene t.fragments (r.recorded.startRun record)

end Passes

end TagMarkup
