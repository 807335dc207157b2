import TagMarkup.Filter.Manager
import TagMarkup.Proofs.Rendering.Simulation

/-! What the filters of a manager can see and change. A relation between hosts that keeps to that,
`Stable`, holds after the same actions and hooks if it held before them, and the answers are the
same. So filters leave alone what is not theirs: the manager's own filters, its fallback and the
stores of others (`Frame`). -/

namespace TagMarkup

namespace Host

def withFilters (h : Host) (live : Filters) : Host := { h with manager := { h.manager with live } }

def withPassEnd (h : Host) (passEnd : EffectQueue) : Host :=
  { h with manager := { h.manager with passEnd } }

def withRunEnd (h : Host) (runEnd : EffectQueue) : Host :=
  { h with manager := { h.manager with runEnd } }

def reset (h : Host) : Host := { h with manager := h.manager.reset }

theorem endPass_eq (h : Host) :
    h.endPass = (h.changeStore h.manager.passEnd.run).withPassEnd ∅ := rfl

theorem endRun_eq (h : Host) : h.endRun = (h.endPass.changeStore h.manager.runEnd.run).reset := rfl

/-- Related hosts show the same to filters, and stay related under all that filters and the end of a
pass or a run do to both. -/
structure Stable (R : Host → Host → Prop) : Prop where
  live : ∀ {h h'}, R h h' → ∀ name, h.manager.live.get? name = h'.manager.live.get? name
  store : ∀ {h h'}, R h h' → h.store = h'.store
  passEnd : ∀ {h h'}, R h h' → h.manager.passEnd = h'.manager.passEnd
  runEnd : ∀ {h h'}, R h h' → h.manager.runEnd = h'.manager.runEnd
  insert : ∀ {h h'}, R h h' → ∀ name installed,
    R (h.withFilters (h.manager.live.insert name installed))
      (h'.withFilters (h'.manager.live.insert name installed))
  erase : ∀ {h h'}, R h h' → ∀ name,
    R (h.withFilters (h.manager.live.erase name)) (h'.withFilters (h'.manager.live.erase name))
  changeStore : ∀ {h h'}, R h h' → ∀ change, R (h.changeStore change) (h'.changeStore change)
  withPassEnd : ∀ {h h'}, R h h' → ∀ queue, R (h.withPassEnd queue) (h'.withPassEnd queue)
  withRunEnd : ∀ {h h'}, R h h' → ∀ queue, R (h.withRunEnd queue) (h'.withRunEnd queue)
  reset : ∀ {h h'}, R h h' → R h.reset h'.reset

namespace Stable

variable {R : Host → Host → Prop} {h h' : Host}

theorem contains (hR : Stable R) (hr : R h h') (name : Text) :
    h.manager.live.contains name = h'.manager.live.contains name :=
  congrArg Option.isSome (hR.live hr name)

theorem perform (hR : Stable R) (action : Action) (hr : R h h') :
    (Host.perform action h).1 = (Host.perform action h').1 ∧
      R (Host.perform action h).2 (Host.perform action h').2 := by
  induction action generalizing h h' with
  | done result => exact ⟨rfl, hr⟩
  | install name filter splitting next _ ih => exact ih (hR.insert hr name ⟨filter, splitting⟩)
  | uninstall name next ih =>
    rw [Host.perform, Host.perform, hR.contains hr]
    exact ih _ (hR.erase hr name)
  | knows name next ih =>
    rw [Host.perform, Host.perform, hR.contains hr]
    exact ih _ hr
  | readStore next ih =>
    rw [Host.perform, Host.perform, hR.store hr]
    exact ih _ hr
  | writeStore change next ih => exact ih (hR.changeStore hr change)
  | atPassEnd key effect next ih =>
    rw [Host.perform, Host.perform, hR.passEnd hr]
    exact ih _ (hR.withPassEnd hr _)
  | atRunEnd key effect next ih =>
    rw [Host.perform, Host.perform, hR.runEnd hr]
    exact ih _ (hR.withRunEnd hr _)

theorem answer (hR : Stable R) (hr : R h h') (info : PassInfo) (path? : Option Path)
    (tag : SingleTag) :
    (h.answer info path? tag).1 = (h'.answer info path? tag).1 ∧
      R (h.answer info path? tag).2 (h'.answer info path? tag).2 := by
  unfold Host.answer
  rw [← hR.live hr]
  cases h.manager.live.get? tag.key with
  | none => exact ⟨rfl, hr⟩
  | some installed =>
    obtain ⟨hsame, hnext⟩ := hR.perform
      (installed.filter (tag.call info.delimiters installed.splitting) ⟨path?, info⟩) hr
    exact ⟨congrArg (Except.mapError (NoAnswer.filter tag.key)) hsame, hnext⟩

theorem ask (hR : Stable R) (hr : R h h') (info : PassInfo) (path? : Option Path) (text : Text) :
    (renderer.responder.ask info path? text h).1 = (renderer.responder.ask info path? text h').1 ∧
      R (renderer.responder.ask info path? text h).2
        (renderer.responder.ask info path? text h').2 := by
  unfold Renderer.responder
  dsimp only
  cases SingleTag.ofText info.delimiters text with
  | error e => exact ⟨rfl, hr⟩
  | ok tag => exact hR.answer hr info path? tag

theorem endPass (hR : Stable R) (hr : R h h') : R h.endPass h'.endPass := by
  rw [endPass_eq, endPass_eq, hR.passEnd hr]
  exact hR.withPassEnd (hR.changeStore hr _) ∅

theorem endRun (hR : Stable R) (hr : R h h') : R h.endRun h'.endRun := by
  rw [endRun_eq, endRun_eq, hR.runEnd hr]
  exact hR.reset (hR.changeStore (hR.endPass hr) _)

theorem simulates (hR : Stable R) (hf : ∀ h h', R h h' → h.manager.fallback = h'.manager.fallback) :
    renderer.responder.Simulates renderer.responder R :=
  ⟨hf, fun _ _ _ => hR.endPass, fun _ _ _ => hR.endRun,
    fun info path? text _ _ hr => hR.ask hr info path? text⟩

end Stable

/-- `after` agrees with `before` on all but the filters that tags find, the effects that wait, and
what is in the manager's store. -/
structure Frame (before after : Host) : Prop where
  own : after.manager.own = before.manager.own
  store : after.manager.store = before.manager.store
  memoize : after.manager.memoize = before.manager.memoize
  fallback : after.manager.fallback = before.manager.fallback
  size : after.pool.size = before.pool.size
  others : ∀ k ≠ before.manager.store, after.pool.get k = before.pool.get k

namespace Frame

variable {before after : Host}

theorem refl (h : Host) : Frame h h := ⟨rfl, rfl, rfl, rfl, rfl, fun _ _ => rfl⟩

theorem changeStore (h : Frame before after) (change : Store → Store) :
    Frame before (after.changeStore change) where
  own := h.own
  store := h.store
  memoize := h.memoize
  fallback := h.fallback
  size := (Pool.size_modify _ _ _).trans h.size
  others k hk := by
    have hne : k ≠ after.manager.store := by rwa [h.store]
    exact (Pool.get_modify_ne _ change hne).trans (h.others k hk)

/-- The filters that tags find and the effects play no part in a frame. -/
theorem shift (h : Frame before after) (live : Filters) (passEnd runEnd : EffectQueue) :
    Frame before { after with manager := { after.manager with live, passEnd, runEnd } } :=
  ⟨h.own, h.store, h.memoize, h.fallback, h.size, h.others⟩

theorem stable (before : Host) : Stable fun h h' => h = h' ∧ Frame before h where
  live hr _ := by rw [hr.1]
  store hr := by rw [hr.1]
  passEnd hr := by rw [hr.1]
  runEnd hr := by rw [hr.1]
  insert hr _ _ := ⟨by rw [hr.1], hr.2.shift _ _ _⟩
  erase hr _ := ⟨by rw [hr.1], hr.2.shift _ _ _⟩
  changeStore hr change := ⟨by rw [hr.1], hr.2.changeStore change⟩
  withPassEnd hr _ := ⟨by rw [hr.1], hr.2.shift _ _ _⟩
  withRunEnd hr _ := ⟨by rw [hr.1], hr.2.shift _ _ _⟩
  reset hr := ⟨by rw [hr.1], hr.2.shift _ _ _⟩

/-- No filter and no hook of a run steps out of the frame. -/
theorem keeps (before : Host) : renderer.responder.Keeps (Frame before) where
  endPass _ _ hf := ((stable before).endPass ⟨rfl, hf⟩).2
  endRun _ _ hf := ((stable before).endRun ⟨rfl, hf⟩).2
  ask info path? text _ hf := ((stable before).ask ⟨rfl, hf⟩ info path? text).2.2

end Frame

/-- A run does nothing but what its start does outside of the frame. -/
theorem run_frame (t : Template) (h : Host) : Frame h.startRun (t.run renderer h).state :=
  (Frame.keeps h.startRun).runWith (.refl _) t

theorem startRun_of_memoize {h : Host} (hm : h.manager.memoize = true) : h.startRun = h.reset :=
  if_pos hm

theorem startRun_of_not_memoize {h : Host} (hm : h.manager.memoize = false) :
    h.startRun = ⟨{ h.manager.reset with store := h.pool.alloc.1 }, h.pool.alloc.2⟩ :=
  if_neg (Bool.eq_false_iff.1 hm)

@[simp] theorem startRun_own (h : Host) : h.startRun.manager.own = h.manager.own := by
  cases hm : h.manager.memoize with
  | true => rw [startRun_of_memoize hm]; rfl
  | false => rw [startRun_of_not_memoize hm]; rfl

@[simp] theorem startRun_fallback (h : Host) :
    h.startRun.manager.fallback = h.manager.fallback := by
  cases hm : h.manager.memoize with
  | true => rw [startRun_of_memoize hm]; rfl
  | false => rw [startRun_of_not_memoize hm]; rfl

@[simp] theorem startRun_memoize (h : Host) : h.startRun.manager.memoize = h.manager.memoize := by
  cases hm : h.manager.memoize with
  | true => rw [startRun_of_memoize hm]; exact hm
  | false => rw [startRun_of_not_memoize hm]; exact hm

end Host

end TagMarkup
