import Mathlib.Logic.Relation
import TagMarkup.Proofs.Rendering.Recording

/-! Passes step by step. A pass enters a region, works through the regions inside it and leaves it
again; between two such steps it is at a moment, with the live text and the regions around it. The
texts of a run are those of the moments that it reaches (`runWith_traced`). -/

namespace TagMarkup

open Relation (ReflTransGen)

variable {σ : Type}

/-- A region that a pass is inside of, with the offset at which it begins in the live text, what is
left to do in front of it, and the regions after it. -/
structure Entered where
  region : Region
  start : Nat
  left : Agenda
  rest : Agenda
  deriving DecidableEq

/-- Where a pass is: inside which regions, the innermost first, what is left to do of the regions
that it has passed there, and the regions still to come. -/
structure Place where
  entered : List Entered
  left : Agenda
  todo : Agenda
  deriving DecidableEq

/-- What a pass does at the end of a region that begins at `start`. -/
def Pass.leave (r : Responder σ) (info : PassInfo) (fallback : Fallback) (region : Region)
    (start : Nat) (inner : Agenda) : PassM σ Agenda := do
  let stop ← Pass.locate region.stop
  Pass.settle r info fallback region.kind start stop inner

namespace Place

/-- The next step of a pass enters a region or leaves one. -/
def step (r : Responder σ) (info : PassInfo) (fallback : Fallback) :
    Place → Option (PassM σ Place)
  | ⟨entered, left, .cons region inner rest⟩ => some do
    let start ← Pass.locate region.start
    return ⟨⟨region, start, left, rest⟩ :: entered, .nil, inner⟩
  | ⟨e :: entered, inner, .nil⟩ => some do
    let left ← Pass.leave r info fallback e.region e.start inner
    return ⟨entered, e.left ++ left, e.rest⟩
  | ⟨[], _, .nil⟩ => none

/-- The pass has come to its end. -/
def IsOver (p : Place) : Prop := p.entered = [] ∧ p.todo = .nil

end Place

structure Moment (σ : Type) where
  place : Place
  live : Live σ
  deriving DecidableEq

namespace Moment

/-- The first moment of a pass. -/
def start (scene : Scene) (state : σ) : Moment σ :=
  ⟨⟨[], .nil, scene.agenda⟩, ⟨scene.text, scene.boundaries, 0, true, state⟩⟩

/-- The text after the last moment of a pass. -/
def scene (m : Moment σ) : Scene :=
  ⟨m.live.text, m.live.boundaries, m.place.left, m.live.ready⟩

def Step (r : Responder σ) (info : PassInfo) (fallback : Fallback) (m m' : Moment σ) : Prop :=
  ∃ act, m.place.step r info fallback = some act ∧ act.run m.live = (.ok m'.place, m'.live)

def Fails (r : Responder σ) (info : PassInfo) (fallback : Fallback) (m : Moment σ)
    (e : PassError) : Prop :=
  ∃ act live, m.place.step r info fallback = some act ∧ act.run m.live = (.error e, live)

/-- The moment after some steps, if the pass goes on for so long. -/
def after? (r : Responder σ) (info : PassInfo) (fallback : Fallback) :
    (steps : Nat) → Moment σ → Option (Moment σ)
  | 0, m => some m
  | n + 1, m => do
    let act ← m.place.step r info fallback
    match act.run m.live with
    | (.ok place, live) => after? r info fallback n ⟨place, live⟩
    | (.error _, _) => none

theorem steps_of_after? {r : Responder σ} {info : PassInfo} {fallback : Fallback} {n : Nat}
    {m m' : Moment σ} (h : m.after? r info fallback n = some m') :
    ReflTransGen (Step r info fallback) m m' := by
  induction n generalizing m with
  | zero =>
    obtain rfl := Option.some.inj h
    exact .refl
  | succ n ih =>
    obtain ⟨act, hact, h⟩ := Option.bind_eq_some_iff.1 h
    split at h
    · next place live hrun => exact .head ⟨act, hact, hrun⟩ (ih h)
    · cases h

end Moment

variable {r : Responder σ} {info : PassInfo} {fallback : Fallback} {α β : Type}

/-! ### Where a pass stops for want of an answer -/

/-- Steps that do not stop for want of an answer. -/
def unstopped : PassRelation σ σ where
  Near live live' := live' = live
  Step live _ m _ := ∀ cause, (m.run live).1 ≠ .error (.noAnswer cause)
  text hn := by rw [hn]
  boundaries hn := by rw [hn]
  growth hn := by rw [hn]
  pure _ _ _ := nofun
  range _ _ _ _ := nofun
  get hn hk := hk
  bind {α β live live' m m' k k'} hm hk := by
    intro cause
    rw [run_bind]
    generalize m.run live = result at hm ⊢
    obtain ⟨e | a, after⟩ := result
    · exact fun heq => hm cause (congrArg Except.error (Except.error.inj heq))
    · exact hk a after after rfl cause
  unready _ _ := nofun
  edit _ _ _ _ _ := nofun

theorem answer_unstopped (hf : fallback ≠ .abort) (path? : Option Path) (text : Text)
    (live live' : Live σ) : unstopped.Step live live' (Pass.answer r info fallback path? text)
      (Pass.answer r info fallback path? text) := by
  intro cause
  let asked := r.ask info path? text live.state
  have hask : (Pass.ask r info path? text).run live =
    (.ok asked.1, { live with state := asked.2 }) := rfl
  rw [Pass.answer, run_bind, hask]
  simp only
  cases asked.1 with
  | ok answer => exact nofun
  | error e =>
    cases fallback with
    | retry => exact nofun
    | passthrough => exact nofun
    | abort => exact absurd rfl hf

/-- Only under `abort` a moment fails for want of an answer. -/
theorem Moment.Fails.eq_abort {m : Moment σ} {cause : NoAnswer}
    (h : m.Fails r info fallback (.noAnswer cause)) : fallback = .abort := by
  refine Decidable.byContradiction fun hf => ?_
  obtain ⟨act, after, hact, hrun⟩ := h
  suffices hunstopped : unstopped.Step m.live m.live act act from
    hunstopped cause (congrArg Prod.fst hrun)
  obtain ⟨⟨entered, left, todo⟩, live⟩ := m
  match entered, todo, hact with
  | _, .cons region inner rest, hact =>
    cases hact
    exact unstopped.bind (unstopped.locate rfl region.start) fun _ _ _ _ => unstopped.pure rfl _
  | e :: entered, .nil, hact =>
    cases hact
    refine unstopped.bind (unstopped.bind (unstopped.locate rfl e.region.stop) ?_) ?_
    · rintro stop live _ rfl
      exact unstopped.settle (fun _ path? text => answer_unstopped hf path? text _ _) rfl
        e.region.kind e.start stop left
    · exact fun _ _ _ _ => unstopped.pure rfl _

/-! ### Passes as sequences of steps -/

/-- From a place on, a step of the code is a sequence of steps to the place `after` its result, or
the last one of them fails as it does. -/
def Plays (r : Responder σ) (info : PassInfo) (fallback : Fallback) (p : Place) (live : Live σ)
    (act : PassM σ α) (after : α → Place) : Prop :=
  match act.run live with
  | (.ok a, live') => ReflTransGen (Moment.Step r info fallback) ⟨p, live⟩ ⟨after a, live'⟩
  | (.error e, _) =>
    ∃ m, ReflTransGen (Moment.Step r info fallback) ⟨p, live⟩ m ∧ m.Fails r info fallback e

theorem Plays.step {p : Place} {act : PassM σ α} {after : α → Place}
    (h : p.step r info fallback = some (act >>= fun a => Pure.pure (after a))) (live : Live σ) :
    Plays r info fallback p live act after := by
  unfold Plays
  cases ha : act.run live with
  | mk result live' =>
    cases result with
    | ok a => exact .single ⟨_, h, by rw [run_bind, ha]; rfl⟩
    | error e => exact ⟨_, .refl, _, live', h, by rw [run_bind, ha]⟩

theorem Plays.bind {p : Place} {live : Live σ} {act : PassM σ α} {after : α → Place}
    {k : α → PassM σ β} {after' : β → Place} (h : Plays r info fallback p live act after)
    (hk : ∀ a live, Plays r info fallback (after a) live (k a) after') :
    Plays r info fallback p live (act >>= k) after' := by
  unfold Plays at h hk ⊢
  rw [run_bind]
  generalize act.run live = result at h ⊢
  obtain ⟨e | a, live'⟩ := result
  · exact h
  · have hk := hk a live'
    simp only
    generalize (k a).run live' = result at hk ⊢
    obtain ⟨e | b, live''⟩ := result
    · obtain ⟨m, hm, hf⟩ := hk
      exact ⟨m, h.trans hm, hf⟩
    · exact h.trans hk

theorem work_cons (r : Responder σ) (info : PassInfo) (fallback : Fallback) (region : Region)
    (inner rest : Agenda) :
    Pass.work r info fallback (.cons region inner rest) = (do
      let start ← Pass.locate region.start
      let inner ← Pass.work r info fallback inner
      let left ← Pass.leave r info fallback region start inner
      let out ← Pass.work r info fallback rest
      return left ++ out) := by
  simp only [Pass.leave, bind_assoc]
  rfl

/-- A pass over an agenda is a sequence of steps, of which the last one fails if the pass does. -/
theorem work_plays (a : Agenda) (live : Live σ) (entered : List Entered) (left : Agenda) :
    Plays r info fallback ⟨entered, left, a⟩ live (Pass.work r info fallback a)
      fun out => ⟨entered, left ++ out, .nil⟩ := by
  induction a generalizing live entered left with
  | nil =>
    show ReflTransGen (Moment.Step r info fallback) ⟨⟨entered, left, .nil⟩, live⟩
      ⟨⟨entered, left ++ .nil, .nil⟩, live⟩
    rw [Forest.append_nil]
  | cons region inner rest ihi ihr =>
    rw [work_cons]
    refine (Plays.step rfl live).bind fun start live => ?_
    refine (ihi live (⟨region, start, left, rest⟩ :: entered) .nil).bind fun inner live => ?_
    refine (Plays.step rfl live).bind fun settled live => ?_
    refine (ihr live entered (left ++ settled)).bind fun out live => ?_
    show ReflTransGen (Moment.Step r info fallback) ⟨⟨entered, left ++ settled ++ out, .nil⟩, live⟩
      ⟨⟨entered, left ++ (settled ++ out), .nil⟩, live⟩
    rw [Forest.append_assoc]

namespace Template

/-- The moments of a run: the pass with its number, the fallback in it, and the moment. -/
inductive Reaches (t : Template) (r : Responder σ) (state : σ) : Nat → Fallback → Moment σ → Prop
  | start : Reaches t r state 0 (r.fallback (r.startRun state)) (.start t.scene (r.startRun state))
  | step {index : Nat} {fallback : Fallback} {m m' : Moment σ}
    (reaches : Reaches t r state index fallback m)
    (step : m.Step r (t.passInfo index) fallback m') : Reaches t r state index fallback m'
  | next {index : Nat} {fallback : Fallback} {m : Moment σ}
    (reaches : Reaches t r state index fallback m) (ended : m.place.IsOver)
    (unready : m.live.ready = false) (more : index + 1 < passLimit) :
    Reaches t r state (index + 1) (r.fallback (r.endPass (t.passInfo index) m.live.state))
      (.start m.scene (r.endPass (t.passInfo index) m.live.state))

variable {t : Template} {s : σ} {index : Nat} {m : Moment σ}

theorem Reaches.steps {m' : Moment σ} (h : t.Reaches r s index fallback m)
    (hs : ReflTransGen (Moment.Step r (t.passInfo index) fallback) m m') :
    t.Reaches r s index fallback m' := by
  induction hs with
  | refl => exact h
  | tail _ hstep ih => exact ih.step hstep

/-- The last moment of a pass has the pass's result, and a pass that stops does so at one of its
moments. -/
theorem Reaches.pass {scene : Scene} {state : σ}
    (h : t.Reaches r s index (r.fallback state) (.start scene state)) :
    match scene.pass r (t.passInfo index) state with
    | (.ok after, state') => ∃ m, t.Reaches r s index (r.fallback state) m ∧ m.place.IsOver ∧
        m.scene = after ∧ m.live.state = state'
    | (.error e, _) => ∃ m, t.Reaches r s index (r.fallback state) m ∧
        m.Fails r (t.passInfo index) (r.fallback state) e := by
  have hp : Plays r (t.passInfo index) (r.fallback state) _ _ _ _ :=
    work_plays scene.agenda ⟨scene.text, scene.boundaries, 0, true, state⟩ [] .nil
  unfold Plays at hp
  unfold Scene.pass
  simp only
  generalize (Pass.work r (t.passInfo index) (r.fallback state) scene.agenda).run
    ⟨scene.text, scene.boundaries, 0, true, state⟩ = result at hp ⊢
  obtain ⟨e | out, live⟩ := result
  · obtain ⟨m, hm, hf⟩ := hp
    exact ⟨m, h.steps hm, hf⟩
  · exact ⟨_, h.steps hp, ⟨rfl, rfl⟩, rfl, rfl⟩

/-- The passes of a run from number `index` on: the fragments after each of them are those of its
last moment, the run ends with the last of these, and it stops only where a moment fails. -/
structure Traced (t : Template) (r : Responder σ) (s : σ) (index : Nat) (fragments : List Text)
    (run : Run σ) : Prop where
  intermediate : ∀ k fs, run.intermediate[k]? = some fs →
    ∃ fallback m, t.Reaches r s (index + k) fallback m ∧ m.place.IsOver ∧
      fs = Fragments.cut m.live.text m.live.boundaries
  outcome : ∀ o, run.result = .ok o → o.passes = index + run.intermediate.length ∧
    o.fragments = run.intermediate.getLastD fragments
  error : ∀ e, run.result = .error e → ∃ i fallback m cause, i = index + run.intermediate.length ∧
    t.Reaches r s i fallback m ∧ m.Fails r (t.passInfo i) fallback cause ∧ e = .ofPass i cause

section Passes

variable {limit : Nat} {scene : Scene} {fragments : List Text} {state : σ}

theorem Traced.ended (outcome : Outcome) (state : σ) :
    t.Traced r s outcome.passes outcome.fragments ⟨.ok outcome, [], state⟩ := by
  refine ⟨by simp, ?_, by simp⟩
  rintro o ⟨⟩
  exact ⟨rfl, rfl⟩

end Passes

theorem runFrom_traced (limit index : Nat) (scene : Scene) (fragments : List Text) (state : σ)
    (hlimit : index + limit = passLimit) (h : scene.ready = false → 0 < limit →
      t.Reaches r s index (r.fallback state) (.start scene state)) :
    t.Traced r s index fragments (t.runFrom r limit index scene fragments state) := by
  induction limit generalizing index scene fragments state with
  | zero =>
    rw [runFrom_over (.inl rfl)]
    exact .ended ⟨fragments, scene.ready, index⟩ _
  | succ limit ih =>
    cases hready : scene.ready with
    | true =>
      rw [runFrom_over (.inr hready)]
      exact .ended ⟨fragments, scene.ready, index⟩ _
    | false =>
      have hpass := (h hready (by omega)).pass
      cases hp : scene.pass r (t.passInfo index) state with
      | mk result state' =>
      rw [hp] at hpass
      cases result with
      | error e =>
        obtain ⟨m, hm, hf⟩ := hpass
        rw [runFrom_stopped hready hp]
        refine ⟨by simp, by simp, ?_⟩
        rintro _ ⟨⟩
        exact ⟨index, _, m, e, rfl, hm, hf, rfl⟩
      | ok next =>
        obtain ⟨m, hm, hover, rfl, rfl⟩ := hpass
        have hmore := ih (index + 1) m.scene (Fragments.cut m.scene.text m.scene.boundaries)
          (r.endPass (t.passInfo index) m.live.state) (by omega)
          fun hready hlimit => hm.next hover hready (by omega)
        rw [runFrom_next hready hp]
        refine ⟨?_, ?_, ?_⟩
        · intro k fs hk
          cases k with
          | zero => exact ⟨_, m, hm, hover, (Option.some.inj hk).symm⟩
          | succ k =>
            rw [← Nat.add_assoc, Nat.add_right_comm]
            exact hmore.intermediate k fs hk
        · intro o ho
          obtain ⟨hpasses, hfragments⟩ := hmore.outcome o ho
          refine ⟨?_, hfragments.trans (List.getLastD_cons ..).symm⟩
          rw [hpasses]
          simp only [List.length_cons]
          omega
        · intro e he
          obtain ⟨i, fallback, m, cause, hi, hfails⟩ := hmore.error e he
          refine ⟨i, fallback, m, cause, ?_, hfails⟩
          rw [hi, List.length_cons]
          omega

theorem runWith_traced (t : Template) (r : Responder σ) (s : σ) :
    t.Traced r s 0 t.fragments (t.runWith r s) :=
  runFrom_traced passLimit 0 t.scene t.fragments (r.startRun s) (Nat.zero_add _)
    fun _ _ => .start

/-- Every run that ends has made a pass. -/
theorem intermediate_ne_nil {o : Outcome} (h : (t.runWith r s).result = .ok o) :
    (t.runWith r s).intermediate ≠ [] := by
  have hrun : t.runWith r s = t.runFrom r (49 + 1) 0 t.scene t.fragments (r.startRun s) := rfl
  rw [hrun] at h ⊢
  have hready : t.scene.ready = false := rfl
  cases hp : t.scene.pass r (t.passInfo 0) (r.startRun s) with
  | mk result state =>
  cases result with
  | error e =>
    rw [runFrom_stopped hready hp] at h
    cases h
  | ok next =>
    rw [runFrom_next hready hp]
    exact List.cons_ne_nil _ _

end Template

end TagMarkup
