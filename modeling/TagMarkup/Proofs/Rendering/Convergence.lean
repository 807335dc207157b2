import TagMarkup.Proofs.Patchwork.Waiting
import TagMarkup.Proofs.Rendering.History
import TagMarkup.Rendering.Delayed

/-! How many passes a run takes when every tag of the template is left as it is a number of times
and then gets an answer that is ready. The tags of a chain get their answers one after another, and
those of different chains at the same time, so the slowest chain decides (`run_converges`). -/

namespace TagMarkup

variable {σ : Type}

/-- The first `k path` visits of the tag at a path left it as it was, and the next one had an answer
that was ready. -/
def Patience (k : Path → Nat) (visits : List Visit) : Prop :=
  ∀ before v after path, visits = before ++ v :: after → v.path? = some path →
    (Visit.times path before < k path → v.answer = .ok (.pending v.text)) ∧
      (Visit.times path before = k path → ∃ text, v.answer = .ok (.final text))

/-- The times that a tag is left as it is after the visits that there were. -/
def Patience.left (k : Path → Nat) (visits : List Visit) (path : Path) : Nat :=
  k path - Visit.times path visits

/-- A patchwork after the visits `visits`: its tags are those of the template, and none of them was
left as it is too often. -/
structure Awaits (k : Path → Nat) (visits : List Visit) (p : Patchwork) : Prop where
  rooted : p.Rooted [] 0
  templated : p.Templated
  times_le : ∀ path ∈ p.paths, Visit.times path visits ≤ k path

namespace Awaits

variable {d : Delimiters} {k : Path → Nat} {p q : Patchwork} {earlier vs later : List Visit}

theorem label {n : Nat} {tags : Forest Tag} (h : Depicts d n p tags) :
    Awaits k [] (p.label [] 0) :=
  ⟨Patchwork.rooted_label h [] 0, Patchwork.templated_label [] 0 p, fun _ _ => Nat.zero_le _⟩

/-- The visits of one pass among all the visits. -/
theorem patient (h : Awaits k earlier p) (hk : Patience k (earlier ++ vs ++ later))
    (ha : Patchwork.Attended d p.tags vs) : Patchwork.Patient (Patience.left k earlier) vs := by
  intro v hv path hpath
  obtain ⟨before, after, rfl⟩ := List.append_of_mem hv
  have hmem : path ∈ p.paths := ha.sublist.subset (List.mem_filterMap.2 ⟨v, hv, hpath⟩)
  have honce : Visit.times path before = 0 := by
    have hall := ha.times_le_one h.rooted.nodup path
    rw [← List.singleton_append, Visit.times_append, Visit.times_append,
      Visit.times_one hpath] at hall
    omega
  obtain ⟨hpending, hfinal⟩ := hk (earlier ++ before) v (after ++ later) path (by simp) hpath
  rw [Visit.times_append, honce] at hpending hfinal
  have hbound := h.times_le path hmem
  unfold Patience.left
  constructor
  · intro hleft
    obtain ⟨text, htext⟩ := hfinal (by omega)
    exact ⟨text, Visit.outcome?_of_ok htext⟩
  · intro hleft
    exact Visit.outcome?_of_ok (hpending (by omega))

theorem not_stopped (h : Awaits k earlier p) (hk : Patience k (earlier ++ vs)) :
    ¬ p.Stopped d vs := by
  intro hp
  have hall : Patience k (earlier ++ vs ++ []) := by rwa [List.append_nil]
  exact hp.not_patient h.templated (h.patient hall hp.attended)

theorem nears (h : Awaits k earlier p) (hk : Patience k (earlier ++ vs ++ later))
    (hp : p.Rewritten d vs q) : Patchwork.Nears (Patience.left k (earlier ++ vs))
      (p.wait (Patience.left k earlier)) vs q := by
  refine hp.nears h.templated h.rooted.nodup (h.patient hk hp.fates.attended) fun path _ => ?_
  rw [Patience.left, Patience.left, Visit.times_append, Nat.sub_add_eq]

theorem next (h : Awaits k earlier p) (hk : Patience k (earlier ++ vs ++ later))
    (hp : p.Rewritten d vs q) : Awaits k (earlier ++ vs) q := by
  refine ⟨hp.rooted h.rooted, (h.nears hk hp).templated, fun path hq => ?_⟩
  have hearlier := h.times_le path (hp.fates.left_sublist.subset hq)
  have hnow := hp.times_le h.rooted.nodup (h.patient hk hp.fates.attended) hq
  rw [Patience.left] at hnow
  rw [Visit.times_append]
  omega

end Awaits

namespace Template

variable {t : Template} {r : Responder σ} {k : Path → Nat}

/-- From a pass on, a run makes one pass more than its patchwork waits, unless the limit ends it. -/
theorem runFrom_converges (limit index : Nat) (scene : Scene) (p : Patchwork)
    (fragments : List Text) (record : Record σ) (htext : p.text = scene.text)
    (hagenda : p.agenda 0 = scene.agenda) (hready : scene.ready = false)
    (hf : record.fallback = r.fallback record.state) (hp : Awaits k record.visits p) :
    let run := t.runFrom r.recorded limit index scene fragments record
    let n := p.wait (Patience.left k record.visits)
    Patience k run.state.visits → ∃ o, run.result = .ok o ∧
      o.passes = index + min limit (n + 1) ∧ (o.ready = true ↔ n < limit) := by
  induction limit generalizing index scene p fragments record with
  | zero =>
    intro run n _
    have hrun : run.result = .ok ⟨fragments, scene.ready, index⟩ :=
      congrArg Run.result (runFrom_over (.inl rfl))
    exact ⟨_, hrun, by simp, by simp [hready]⟩
  | succ limit ih =>
    intro run n hk
    have hflat := scene.pass_agrees r.recorded (t.passInfo index) p record htext hagenda
    have hpass := p.pass_visited r (t.passInfo index) record hf
    generalize p.pass r.recorded (t.passInfo index) record = passed at hflat hpass
    obtain ⟨cause | ⟨q, ready⟩, after⟩ := passed
    · obtain ⟨vs, _, hvs, hstopped⟩ := hpass
      have hrun : run.state = after := congrArg Run.state (runFrom_stopped hready hflat)
      have hvisits : after.visits = record.visits ++ vs := hvs.visits
      rw [hrun, hvisits] at hk
      exact absurd hstopped (hp.not_stopped hk)
    · obtain ⟨vs, hvs, hfinal, hrewritten⟩ := hpass
      obtain ⟨boundaries, hflat⟩ := hflat
      let next : Scene := ⟨q.text, boundaries, q.agenda 0, ready⟩
      let cut := Fragments.cut q.text boundaries
      let resumed := r.recorded.endPass (t.passInfo index) after
      let more := t.runFrom r.recorded limit (index + 1) next cut resumed
      have hrun : run = ⟨more.result, cut :: more.intermediate, more.state⟩ :=
        runFrom_next hready hflat
      rw [hrun] at hk ⊢
      have hvisits : resumed.visits = record.visits ++ vs := hvs.visits
      cases ready with
      | true =>
        have hmore : more = ⟨.ok ⟨cut, true, index + 1⟩, [], _⟩ := runFrom_over (.inr rfl)
        have hlast : more.state.visits = record.visits ++ vs ++ [] := by
          rw [hmore, List.append_nil]
          exact hvisits
        have hn : n = 0 := by
          rw [hlast] at hk
          exact (hp.nears hk hrewritten).plain.1 (hrewritten.isPlain (hfinal.1 rfl))
        rw [hmore]
        exact ⟨_, rfl, by simp [hn], by simp [hn]⟩
      | false =>
        -- the hypothesis is about the visits of the whole run, and later passes make more of them
        obtain ⟨ws, -, hws, -⟩ := t.runFrom_course limit (index + 1) next q cut resumed
          rfl rfl rfl rfl
        have hlast : more.state.visits = record.visits ++ vs ++ ws := by
          rw [← hvisits]
          exact hws
        have hk' := hk
        rw [hlast] at hk'
        have hnears := hp.nears hk' hrewritten
        have hnext := hp.next hk' hrewritten
        rw [← hvisits] at hnears hnext
        have hn : n ≠ 0 := fun hzero => by
          have := hfinal.2 (hnears.final hzero)
          cases this
        obtain ⟨o, ho, hpasses, hready⟩ := ih (index + 1) next q cut resumed rfl rfl rfl rfl
          hnext hk
        rw [hnears.wait] at hpasses hready
        refine ⟨o, ho, ?_, ?_⟩
        · rw [hpasses]
          omega
        · rw [hready]
          omega

/-- If every tag is left as it is a number of times and then gets an answer that is ready, the run
ends with everything ready, after one pass more than the tags of the slowest chain are left as they
are; if the limit comes first, the run ends there. -/
theorem run_converges (t : Template) (r : Renderer σ) (s : σ) (k : Path → Nat) :
    let run := t.runWith r.responder.recorded (.start r.responder s)
    let n := 1 + t.outline.delay k
    t.run r s = run.map Record.state ∧ (Patience k run.state.visits →
      ∃ o, (t.run r s).result = .ok o ∧ (t.run r s).intermediate.length = o.passes ∧
        (n ≤ 50 → o.ready = true ∧ o.passes = n) ∧ (50 < n → o.ready = false ∧ o.passes = 50)) := by
  intro run n
  have hrecorded : t.run r s = run.map Record.state := run_recorded t r.responder s
  refine ⟨hrecorded, fun hk => ?_⟩
  obtain ⟨p, htext, hdepicts, hagenda⟩ := t.exists_patchwork
  have hscene : (p.label [] 0).text = t.scene.text := (Patchwork.text_label [] 0 p).trans htext
  let record := r.responder.recorded.startRun (.start r.responder s)
  obtain ⟨o, ho, hpasses, hready⟩ := runFrom_converges passLimit 0 t.scene (p.label [] 0)
    t.fragments record hscene hagenda rfl rfl (Awaits.label hdepicts) hk
  -- nothing has been visited yet
  have hwait : (p.label [] 0).wait (Patience.left k record.visits) = t.outline.delay k :=
    Patchwork.wait_label k hdepicts [] 0
  rw [hwait, passLimit] at hpasses hready
  have hn : n = 1 + t.outline.delay k := rfl
  have hresult : (t.run r s).result = .ok o := by
    rw [hrecorded]
    exact ho
  have hlength := ((runWith_traced t r.responder s).outcome o hresult).1
  refine ⟨o, hresult, (hlength.trans (Nat.zero_add _)).symm, fun hle => ?_, fun hlt => ?_⟩
  · exact ⟨hready.2 (by omega), by omega⟩
  · have hunready : ¬ o.ready = true := fun h => by
      have := hready.1 h
      omega
    exact ⟨eq_false_of_ne_true hunready, by omega⟩

theorem run_converges_delayed :
    ∃ t, read ["[[a::[[b]]]][[c]]".toList] .single .standard = .ok t ∧
      let r := Renderer.delayed 1
      let run := t.runWith r.responder.recorded (.start r.responder ())
      let k : Path → Nat := fun path => if path = [0] then 0 else 1
      Patience k run.state.visits ∧ 1 + t.outline.delay k = 2 ∧
        ∃ o, (t.run r ()).result = .ok o ∧ (t.run r ()).intermediate.length = o.passes ∧
          o.ready = true ∧ o.passes = 2 := by
  let text : Text := "[[a::[[b]]]][[c]]".toList
  let b : Tag := ⟨.inline, ⟨['b'], []⟩, 5, 10⟩
  let a : Tag := ⟨.inline, ⟨['a'], [["[[b]]".toList]]⟩, 0, 12⟩
  let c : Tag := ⟨.inline, ⟨['c'], []⟩, 12, 17⟩
  let t : Template := ⟨[text], .single, .standard, ⟨17, .cons a (.tree b .nil) (.tree c .nil)⟩, [],
    by decide +kernel⟩
  have ht : read [text] .single .standard = .ok t := read_eq_ok.2 ⟨rfl, rfl, rfl, rfl⟩
  let k : Path → Nat := fun path => if path = [0] then 0 else 1
  let r := Renderer.delayed 1
  let run := t.runWith r.responder.recorded (.start r.responder ())
  let visit (index : Nat) (path : Path) (text : String) (answer : Answer) : Visit :=
    ⟨t.passInfo index, .retry, some path, text.toList, .ok answer⟩
  have hvisits : run.state.visits = [
      visit 0 [0, 0] "[[b]]" (.pending "[[b]]".toList),
      visit 0 [1] "[[c]]" (.pending "[[c]]".toList),
      visit 1 [0, 0] "[[b]]" (.final "<b>".toList),
      visit 1 [0] "[[a::<b>]]" (.final "<a>".toList),
      visit 1 [1] "[[c]]" (.final "<c>".toList)] := by
    decide +kernel
  have hk : Patience k run.state.visits := by
    rw [hvisits]
    intro before v after path h hpath
    simp only [List.cons_eq_append_iff, List.nil_eq_append_iff, reduceCtorEq, and_false,
      List.cons.injEq] at h
    rcases h with ⟨rfl, rfl, rfl⟩ | ⟨_, rfl, ⟨rfl, rfl, rfl⟩ | ⟨_, rfl, ⟨rfl, rfl, rfl⟩ |
      ⟨_, rfl, ⟨rfl, rfl, rfl⟩ | ⟨_, rfl, ⟨rfl, rfl, rfl⟩ | ⟨_, _, ⟨_, ⟨⟩⟩⟩⟩⟩⟩⟩ <;> cases hpath
    · exact ⟨fun _ => rfl, fun h => absurd h (by decide)⟩
    · exact ⟨fun _ => rfl, fun h => absurd h (by decide)⟩
    · exact ⟨fun h => absurd h (by decide), fun _ => ⟨_, rfl⟩⟩
    · exact ⟨fun h => absurd h (by decide), fun _ => ⟨_, rfl⟩⟩
    · exact ⟨fun h => absurd h (by decide), fun _ => ⟨_, rfl⟩⟩
  have hn : 1 + t.outline.delay k = 2 := by decide +kernel
  obtain ⟨o, ho, hpasses, hready, -⟩ := (run_converges t r () k).2 hk
  rw [hn] at hready
  exact ⟨t, ht, hk, hn, o, ho, hpasses, hready (by decide)⟩

end Template

end TagMarkup
