import TagMarkup.Rendering.Pass

/-! Two passes side by side. A pass works in the same way for all responders but where it asks for
an answer, so a relation between steps goes through a whole pass if it goes through the steps that a
pass is made of and holds of the answers (`PassRelation.work`). -/

namespace TagMarkup

variable {σ τ : Type}

theorem run_bind {ε ρ α β : Type} (m : ExceptT ε (StateM ρ) α) (f : α → ExceptT ε (StateM ρ) β)
    (s : ρ) : (m >>= f).run s = match m.run s with
      | (.ok a, s) => (f a).run s
      | (.error e, s) => (.error e, s) := by
  show (ExceptT.bindCont f (m.run s).1).run (m.run s).2 = _
  rcases m.run s with ⟨a | e, s⟩ <;> rfl

/-- A relation `Step` between the steps of two passes, made where their live texts are the same and
more may be known of them, which is `Near`. -/
structure PassRelation (σ τ : Type) where
  Near : Live σ → Live τ → Prop
  Step : {α : Type} → Live σ → Live τ → PassM σ α → PassM τ α → Prop
  text : ∀ {live live'}, Near live live' → live'.text = live.text
  boundaries : ∀ {live live'}, Near live live' → live'.boundaries = live.boundaries
  growth : ∀ {live live'}, Near live live' → live'.growth = live.growth
  pure : ∀ {α live live'}, Near live live' → ∀ a : α, Step live live' (pure a) (pure a)
  range : ∀ {α live live'}, Near live live' → ∀ start stop,
    Step (α := α) live live' (throw (.range start stop)) (throw (.range start stop))
  get : ∀ {α live live'} {k : Live σ → PassM σ α} {k' : Live τ → PassM τ α}, Near live live' →
    Step live live' (k live) (k' live') → Step live live' (get >>= k) (get >>= k')
  bind : ∀ {α β live live'} {m : PassM σ α} {m' : PassM τ α} {k : α → PassM σ β}
    {k' : α → PassM τ β}, Step live live' m m' →
      (∀ a live live', Near live live' → Step live live' (k a) (k' a)) →
      Step live live' (m >>= k) (m' >>= k')
  unready : ∀ {live live'}, Near live live' → Step live live' Pass.unready Pass.unready
  edit : ∀ {live live'}, Near live live' → ∀ text boundaries growth,
    Step live live' (set { live with text, boundaries, growth })
      (set { live' with text, boundaries, growth })

namespace PassRelation

variable (w : PassRelation σ τ) {live : Live σ} {live' : Live τ}

theorem locate (hn : w.Near live live') (position : Nat) :
    w.Step live live' (Pass.locate position) (Pass.locate position) := by
  apply w.get hn
  show w.Step live live' (if 0 ≤ (position : Int) + live.growth then _ else _)
    (if 0 ≤ (position : Int) + live'.growth then _ else _)
  rw [w.growth hn]
  split
  · exact w.pure hn _
  · exact w.range hn _ _

theorem replace (hn : w.Near live live') (start stop : Nat) (new : Text) :
    w.Step live live' (Pass.replace start stop new) (Pass.replace start stop new) := by
  apply w.get hn
  rw [w.text hn, w.boundaries hn, w.growth hn]
  cases live.text.replace? start stop new with
  | none => exact w.range hn _ _
  | some text => exact w.edit hn text _ _

variable {r : Responder σ} {r' : Responder τ} {info : PassInfo} {fallback fallback' : Fallback}
  (hanswer : ∀ {live live'}, w.Near live live' → ∀ path? text,
    w.Step live live' (Pass.answer r info fallback path? text)
      (Pass.answer r' info fallback' path? text))

include hanswer

theorem settleTag (hn : w.Near live live') (path? : Option Path) (start stop : Nat) :
    w.Step live live' (Pass.settleTag r info fallback path? start stop)
      (Pass.settleTag r' info fallback' path? start stop) := by
  apply w.get hn
  rw [w.text hn]
  cases live.text.slice? start stop with
  | none => exact w.range hn _ _
  | some text =>
    refine w.bind (hanswer hn path? text) fun answer live live' hn => ?_
    cases answer.ready with
    | true =>
      simp only [Bool.not_true, Bool.false_eq_true, ↓reduceIte]
      split
      · exact w.pure hn _
      · exact w.bind (w.replace hn _ _ _) fun _ _ _ hn => w.pure hn _
    | false =>
      simp only [Bool.not_false, ↓reduceIte]
      refine w.bind (w.unready hn) fun _ live live' hn => ?_
      split
      · exact w.pure hn _
      · exact w.bind (w.replace hn _ _ _) fun _ _ _ hn => w.pure hn _

theorem settle (hn : w.Near live live') (kind : RegionKind) (start stop : Nat) (inner : Agenda) :
    w.Step live live' (Pass.settle r info fallback kind start stop inner)
      (Pass.settle r' info fallback' kind start stop inner) := by
  cases kind with
  | group => cases inner <;> exact w.pure hn _
  | tag path? =>
    cases inner with
    | nil => exact w.settleTag hanswer hn path? start stop
    | cons region inner rest => exact w.bind (w.unready hn) fun _ _ _ hn => w.pure hn _

theorem work (hn : w.Near live live') (agenda : Agenda) :
    w.Step live live' (Pass.work r info fallback agenda) (Pass.work r' info fallback' agenda) := by
  induction agenda generalizing live live' with
  | nil => exact w.pure hn _
  | cons region inner rest ihi ihr =>
    refine w.bind (w.locate hn region.start) fun start live live' hn => ?_
    refine w.bind (ihi hn) fun inner live live' hn => ?_
    refine w.bind (w.locate hn region.stop) fun stop live live' hn => ?_
    refine w.bind (w.settle hanswer hn region.kind start stop inner) fun left live live' hn => ?_
    exact w.bind (ihr hn) fun rest live live' hn => w.pure hn _

end PassRelation

end TagMarkup
