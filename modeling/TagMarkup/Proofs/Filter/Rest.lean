import TagMarkup.Proofs.Filter.Fallbacks

/-! A host between its runs. When a run has an outcome, nothing of it stays in force: the filters
that it installed are gone, those that it took away are back, and no effect waits. A run that
`abort` ends skips this; what it leaves is in force until the next run starts. -/

namespace TagMarkup

namespace Host

/-- Tags find the manager's own filters and no others, and no effect waits. -/
structure AtRest (h : Host) : Prop where
  live : h.manager.live = h.manager.own
  passEnd : h.manager.passEnd = ∅
  runEnd : h.manager.runEnd = ∅

variable {h : Host} {t : Template}

theorem AtRest.knows (hr : h.AtRest) (name : Text) :
    h.manager.knows name = h.manager.own.contains name :=
  congrArg (Table.contains · name) hr.live

theorem atRest_reset (h : Host) : h.reset.AtRest := ⟨rfl, rfl, rfl⟩

/-- Whatever has been left behind ends when the next run starts. -/
theorem atRest_startRun (h : Host) : h.startRun.AtRest := by
  cases hm : h.manager.memoize with
  | true =>
    rw [startRun_of_memoize hm]
    exact atRest_reset h
  | false =>
    rw [startRun_of_not_memoize hm]
    exact ⟨rfl, rfl, rfl⟩

theorem atRest_of_outcome {o : Outcome} (ho : (t.run renderer h).result = .ok o) :
    (t.run renderer h).state.AtRest := by
  obtain ⟨last, hlast⟩ := Template.runFrom_endRun ho
  have hend : (t.run renderer h).state = last.endRun := hlast
  rw [hend, endRun_eq]
  exact atRest_reset _

theorem run_own (t : Template) (h : Host) :
    (t.run renderer h).state.manager.own = h.manager.own :=
  (run_frame t h).own.trans (startRun_own h)

theorem atRest_or_aborted (t : Template) (h : Host) :
    (t.run renderer h).state.AtRest ∨ h.manager.fallback = .abort ∧
      ∃ index cause, (t.run renderer h).result = .error (.aborted index cause) := by
  cases hresult : (t.run renderer h).result with
  | ok o => exact .inl (atRest_of_outcome hresult)
  | error e =>
    obtain ⟨index, cause, rfl⟩ := Template.runWith_aborted hresult
    refine .inr ⟨Decidable.byContradiction fun hf => ?_, index, cause, rfl⟩
    obtain ⟨o, ho⟩ := run_completes (t := t) hf
    cases hresult.symm.trans ho

/-- A filter that installs another one. -/
def installer (name : Text) : Filter := fun _ _ =>
  .install name (fun _ _ => .final []) .template (.final [])

/-- A manager with a filter under `def` that installs one under `new`, and with the fallback
`abort`. -/
def installing : Host :=
  let host := Manager.new ∅
  { host with manager :=
    { host.manager.install "def".toList (installer "new".toList) .template with
      fallback := .abort } }

theorem exists_leftover : ∃ t, Template.ofText "[[def]][[nope]]".toList = .ok t ∧
    (t.run renderer installing).result = .error (.aborted 0 (.unknownKey "nope".toList)) ∧
    installing.manager.own.contains "new".toList = false ∧
    (t.run renderer installing).state.manager.knows "new".toList = true := by
  let text : Text := "[[def]][[nope]]".toList
  let tags : Forest Tag := .cons ⟨.inline, ⟨"def".toList, []⟩, 0, 7⟩ .nil
    (.tree ⟨.inline, ⟨"nope".toList, []⟩, 7, 15⟩ .nil)
  let t : Template := ⟨[text], .single, .standard, ⟨15, tags⟩, [], by decide +kernel⟩
  refine ⟨t, Template.read_eq_ok.2 ⟨rfl, rfl, rfl, rfl⟩, ?_, ?_, ?_⟩
  · decide +kernel
  · decide +kernel
  · decide +kernel

/-- What is installed and not the manager's own shows that the host is not at rest. -/
theorem not_atRest_of_knows {before after : Host} {name : Text}
    (hown : after.manager.own = before.manager.own)
    (hname : before.manager.own.contains name = false)
    (hknows : after.manager.knows name = true) : ¬ after.AtRest := by
  intro hr
  rw [hr.knows, hown, hname] at hknows
  cases hknows

/-- A run leaves the manager's own filters alone, and leaves nothing of itself in force unless
`abort` has ended it. With `abort` there are runs that do leave something. -/
theorem atRest_iff_ne_abort (fallback : Fallback) :
    (∀ (t : Template) (h : Host), h.manager.fallback = fallback →
      (t.run renderer h).state.manager.own = h.manager.own ∧
        ((t.run renderer h).state.AtRest ∨ fallback = .abort ∧
          ∃ index cause, (t.run renderer h).result = .error (.aborted index cause))) ∧
    ((∀ (t : Template) (h : Host), h.manager.fallback = fallback →
      (t.run renderer h).state.AtRest) ↔ fallback ≠ .abort) := by
  constructor
  · rintro t h rfl
    exact ⟨run_own t h, atRest_or_aborted t h⟩
  constructor
  · rintro hrests rfl
    obtain ⟨t, -, -, hown, hknows⟩ := exists_leftover
    exact not_atRest_of_knows (run_own t installing) hown hknows (hrests t installing rfl)
  · rintro hf t h rfl
    exact (atRest_or_aborted t h).resolve_right fun haborted => hf haborted.1

/-- The tag `def` installs a filter, and no filter answers for the tag after it: the run ends there,
and the installed filter is still found. -/
theorem not_atRest_aborted : ∃ t, Template.ofText "[[def]][[nope]]".toList = .ok t ∧
    (t.run renderer installing).result = .error (.aborted 0 (.unknownKey "nope".toList)) ∧
    installing.manager.own.contains "new".toList = false ∧
    (t.run renderer installing).state.manager.knows "new".toList = true ∧
    ¬ (t.run renderer installing).state.AtRest := by
  obtain ⟨t, ht, hresult, hown, hknows⟩ := exists_leftover
  exact ⟨t, ht, hresult, hown, hknows, not_atRest_of_knows (run_own t installing) hown hknows⟩

end Host

end TagMarkup
