import TagMarkup.Proofs.Fragments
import TagMarkup.Proofs.Rendering.Placement

/-! The fragments of a run. The boundaries cut the live text at every moment, so the fragments after
each pass make up its text, and there are as many of them as the template has. Every run that is not
aborted ends with such fragments (`fragments_kept`). -/

namespace TagMarkup

variable {σ : Type} {m m' : Moment σ}

theorem Moment.Edits.length_eq (h : m.Edits m') :
    m'.live.boundaries.length = m.live.boundaries.length := by
  rcases h with ⟨-, hb⟩ | ⟨_, _, _, _, -, -, -, hb⟩
  · rw [hb]
  · rw [hb, List.length_map]

theorem Moment.Edits.cuts (h : m.Edits m')
    (hm : Fragments.Cuts m.live.text m.live.boundaries) :
    Fragments.Cuts m'.live.text m'.live.boundaries := by
  rcases h with ⟨ht, hb⟩ | ⟨before, old, new, after, ht, ho, ht', hb⟩
  · rw [ht, hb]
    exact hm
  · rw [ht', hb]
    rw [ht] at hm
    exact hm.replace ho

namespace Template

variable {t : Template} {r : Responder σ} {s : σ} {index : Nat} {fallback : Fallback}

theorem Reaches.length_boundaries (h : t.Reaches r s index fallback m) :
    m.live.boundaries.length = t.fragments.length + 1 := by
  induction h with
  | start => exact Fragments.length_boundaries 0 t.fragments
  | step hm hstep ih => rw [(hm.fitted.step hstep).2.length_eq, ih]
  | next _ _ _ _ ih => exact ih

theorem Reaches.cuts (h : t.Reaches r s index fallback m) :
    Fragments.Cuts m.live.text m.live.boundaries := by
  induction h with
  | start => exact Fragments.cuts_boundaries t.fragments
  | step hm hstep ih => exact (hm.fitted.step hstep).2.cuts ih
  | next _ _ _ _ ih => exact ih

/-- The fragments are as many as the template has, and together they are the text at the last moment
of a pass. -/
def Leaves (t : Template) (r : Responder σ) (s : σ) (index : Nat) (fs : List Text) : Prop :=
  fs.length = t.fragments.length ∧
    ∃ fallback m, t.Reaches r s index fallback m ∧ m.place.IsOver ∧ fs.flatten = m.live.text

theorem leaves_intermediate {k : Nat} {fs : List Text}
    (h : (t.runWith r s).intermediate[k]? = some fs) : t.Leaves r s k fs := by
  obtain ⟨fallback, m, hm, hover, rfl⟩ := (t.runWith_traced r s).intermediate k fs h
  rw [Nat.zero_add] at hm
  refine ⟨?_, fallback, m, hm, hover, hm.cuts.flatten⟩
  rw [Fragments.length_cut, hm.length_boundaries, Nat.add_sub_cancel]

theorem leaves_outcome {o : Outcome} (h : (t.runWith r s).result = .ok o) :
    t.Leaves r s (o.passes - 1) o.fragments := by
  obtain ⟨hpasses, hfragments⟩ := (t.runWith_traced r s).outcome o h
  refine leaves_intermediate ?_
  have hne := intermediate_ne_nil h
  rw [hpasses, hfragments, Nat.zero_add, ← List.getLast?_eq_getElem?,
    List.getLast?_eq_some_getLast hne, List.getLastD_eq_getLast?,
    List.getLast?_eq_some_getLast hne]
  rfl

theorem Reaches.exists_fallback (h : t.Reaches r s index fallback m) :
    ∃ s', fallback = r.fallback s' := by
  induction h with
  | start => exact ⟨_, rfl⟩
  | step _ _ ih => exact ih
  | next => exact ⟨_, rfl⟩

theorem exists_outcome (hr : ∀ s', r.fallback s' ≠ .abort) :
    ∃ o, (t.runWith r s).result = .ok o := by
  cases h : (t.runWith r s).result with
  | ok o => exact ⟨o, rfl⟩
  | error e =>
    obtain ⟨_, _, _, -, -, hm⟩ := runWith_stopped h
    obtain ⟨s', habort⟩ := hm.exists_fallback
    exact absurd habort.symm (hr s')

/-- One list of fragments is told after each pass, and at least one pass is made. -/
theorem passes_eq {o : Outcome} (h : (t.runWith r s).result = .ok o) :
    o.passes = (t.runWith r s).intermediate.length ∧ 0 < o.passes := by
  have hpasses := ((t.runWith_traced r s).outcome o h).1
  rw [Nat.zero_add] at hpasses
  refine ⟨hpasses, ?_⟩
  rw [hpasses]
  exact List.length_pos_iff.2 (intermediate_ne_nil h)

/-- At every moment of a run the boundaries cut the live text, so between any two neighbouring ones
there is a fragment of it. After every pass and in the end there are as many fragments as the
template has, and they make up the whole text. Without `abort` every run comes to such an end, and a
run without an outcome has been aborted in the pass after those that have ended. -/
theorem fragments_kept (t : Template) (r : Responder σ) (s : σ) :
    (∀ index fallback m, t.Reaches r s index fallback m →
      m.live.boundaries.length = t.fragments.length + 1 ∧
      Fragments.Cuts m.live.text m.live.boundaries ∧
      ∀ a b, [a, b] <:+: m.live.boundaries → ∃ f, m.live.text.slice? a b = some f) ∧
    (∀ k fs, (t.runWith r s).intermediate[k]? = some fs → t.Leaves r s k fs) ∧
    (∀ o, (t.runWith r s).result = .ok o → t.Leaves r s (o.passes - 1) o.fragments ∧
      o.passes = (t.runWith r s).intermediate.length ∧ 0 < o.passes) ∧
    ((∀ s', r.fallback s' ≠ .abort) → ∃ o, (t.runWith r s).result = .ok o) ∧
    ∀ e, (t.runWith r s).result = .error e → ∃ index cause m,
      index = (t.runWith r s).intermediate.length ∧ e = .aborted index cause ∧
        t.Reaches r s index .abort m := by
  refine ⟨fun index fallback m hm => ?_, fun _ _ => leaves_intermediate, fun o ho => ?_,
    exists_outcome, fun _ => runWith_stopped⟩
  · exact ⟨hm.length_boundaries, hm.cuts, fun a b => hm.cuts.exists_slice⟩
  · exact ⟨leaves_outcome ho, passes_eq ho⟩

end Template

end TagMarkup
