import TagMarkup.Proofs.Outline
import TagMarkup.Proofs.Patchwork.Fates
import TagMarkup.Proofs.Rendering.Moment
import TagMarkup.Proofs.Rendering.Refinement

/-! The history of a run: which tags of the template are visited, in which order and how often. A
tag is visited behind all tags inside it, once in a pass, and with the same text as long as it stays
as it is; after any other answer it is not visited again. If the run ends with everything ready, no
tag has been left out (`run_attends`). -/

namespace TagMarkup

variable {σ : Type}

namespace Template

/-- The visits are those of one pass, with answers of the responder. -/
def InPass (t : Template) (r : Responder σ) (index : Nat) (vs : List Visit) : Prop :=
  ∀ v ∈ vs, v.info = t.passInfo index ∧ ∃ s, v.answer = (r.ask v.info v.path? v.text s).1

/-- The passes of a run from number `index` on, the first of them over the patchwork `p`, with all
their visits, and whether the last of them found everything ready. -/
inductive Course (t : Template) (r : Responder σ) : Nat → Patchwork → List Visit → Bool → Prop
  | unready (index : Nat) (p : Patchwork) : Course t r index p [] false
  | stopped {index : Nat} {p : Patchwork} {vs : List Visit} (inPass : t.InPass r index vs)
    (stopped : p.Stopped t.delimiters vs) : Course t r index p vs false
  | ready {index : Nat} {p q : Patchwork} {vs : List Visit} (inPass : t.InPass r index vs)
    (rewritten : p.Rewritten t.delimiters vs q) (plain : q.isPlain = true) :
    Course t r index p vs true
  | next {index : Nat} {p q : Patchwork} {vs ws : List Visit} {ready : Bool}
    (inPass : t.InPass r index vs) (rewritten : p.Rewritten t.delimiters vs q)
    (more : Course t r (index + 1) q ws ready) : Course t r index p (vs ++ ws) ready

/-- In each of `passes` passes from number `index` on, the first of them over the patchwork `p`,
every tag of the template that has no regions in it is visited, unless an answer of an earlier pass
was not to leave it as it is. -/
def Watches (p : Patchwork) (index passes : Nat) (vs : List Visit) : Prop :=
  ∀ k < passes, ∀ path u, (path, .plain u) ∈ p.tags → ∃ v ∈ vs, v.path? = some path ∧
    (v.info.index = index + k ∨ v.info.index < index + k ∧ v.outcome? ≠ some (.pending v.text))

theorem Watches.none (p : Patchwork) (index : Nat) (vs : List Visit) : Watches p index 0 vs :=
  fun _ hk => absurd hk (Nat.not_lt_zero _)

theorem Watches.next {d : Delimiters} {p q : Patchwork} {index passes : Nat} {vs ws : List Visit}
    (hindex : ∀ v ∈ vs, v.info.index = index) (hp : p.Rewritten d vs q)
    (h : Watches q (index + 1) passes ws) : Watches p index (passes + 1) (vs ++ ws) := by
  intro k hk path u hu
  obtain ⟨v, hv, hpath, htext, hstays⟩ := hp.visit hu
  have hmem : v ∈ vs ++ ws := List.mem_append_left _ hv
  cases k with
  | zero => exact ⟨v, hmem, hpath, .inl (hindex v hv)⟩
  | succ k =>
    by_cases ho : v.outcome? = some (.pending u)
    · obtain ⟨w, hw, hpath', hwhen⟩ := h k (by omega) path u (hstays ho)
      rw [Nat.add_right_comm] at hwhen
      exact ⟨w, List.mem_append_right _ hw, hpath', hwhen⟩
    · refine ⟨v, hmem, hpath, .inr ⟨?_, by rwa [htext]⟩⟩
      rw [hindex v hv]
      omega

variable {t : Template} {r : Responder σ}

theorem runFrom_course (limit index : Nat) (scene : Scene) (p : Patchwork) (fragments : List Text)
    (record : Record σ) (htext : p.text = scene.text) (hagenda : p.agenda 0 = scene.agenda)
    (hready : scene.ready = false) (hf : record.fallback = r.fallback record.state) :
    let run := t.runFrom r.recorded limit index scene fragments record
    ∃ vs ready, run.state.visits = record.visits ++ vs ∧ t.Course r index p vs ready ∧
      Watches p index run.intermediate.length vs ∧
      ∀ o, run.result = .ok o → o.ready = true → ready = true := by
  induction limit generalizing index scene p fragments record with
  | zero =>
    rw [runFrom_over (.inl rfl)]
    refine ⟨[], false, (List.append_nil _).symm, .unready index p, .none _ _ _, ?_⟩
    rintro o ⟨⟩ ho
    rw [← ho, hready]
  | succ limit ih =>
    have hflat := scene.pass_agrees r.recorded (t.passInfo index) p record htext hagenda
    have hpass := p.pass_visited r (t.passInfo index) record hf
    generalize p.pass r.recorded (t.passInfo index) record = passed at hflat hpass
    obtain ⟨cause | ⟨q, ready⟩, after⟩ := passed
    · obtain ⟨vs, _, hvs, hp⟩ := hpass
      rw [runFrom_stopped hready hflat]
      have hin : t.InPass r index vs := fun v hv => ⟨(hvs.same v hv).1, hvs.answers v hv⟩
      refine ⟨vs, false, hvs.visits, .stopped hin hp, .none _ _ _, ?_⟩
      rintro o ⟨⟩
    · obtain ⟨vs, hvs, hfinal, hp⟩ := hpass
      obtain ⟨boundaries, hflat⟩ := hflat
      have hin : t.InPass r index vs := fun v hv => ⟨(hvs.same v hv).1, hvs.answers v hv⟩
      have hindex (v : Visit) (hv : v ∈ vs) : v.info.index = index := by
        rw [(hvs.same v hv).1]
        rfl
      have hvisits : after.visits = record.visits ++ vs := hvs.visits
      rw [runFrom_next hready hflat]
      cases ready with
      | true =>
        rw [runFrom_over (.inr rfl)]
        have hwatch : Watches p index 1 (vs ++ []) := .next hindex hp (.none q _ _)
        rw [List.append_nil] at hwatch
        exact ⟨vs, true, hvisits, .ready hin hp (hp.isPlain (hfinal.1 rfl)), hwatch,
          fun _ _ _ => rfl⟩
      | false =>
        obtain ⟨ws, ready, hws, hmore, hwatch, hend⟩ := ih (index + 1)
          ⟨q.text, boundaries, q.agenda 0, false⟩ q (Fragments.cut q.text boundaries)
          (r.recorded.endPass (t.passInfo index) after) rfl rfl rfl rfl
        refine ⟨vs ++ ws, ready, ?_, .next hin hp hmore, hwatch.next hindex hp, hend⟩
        rw [← List.append_assoc, ← hvisits]
        exact hws

/-- If one tag of the template is visited behind another one and is not outside of it, it is the
same tag in a later pass, and its first visit has left it as it was. -/
def Behind (v w : Visit) : Prop :=
  ∀ a b, v.path? = some a → w.path? = some b → a <+: b →
    a = b ∧ v.info.index < w.info.index ∧ w.text = v.text ∧ v.outcome? = some (.pending v.text)

/-- Visits of the same tag of the template have the same text. -/
def Alike (v w : Visit) : Prop :=
  ∀ path, v.path? = some path → w.path? = some path → v.text = w.text

namespace Course

variable {index : Nat} {p : Patchwork} {vs : List Visit} {ready : Bool}

theorem index_le (h : t.Course r index p vs ready) :
    ∀ v ∈ vs, index ≤ v.info.index ∧ v.info = t.passInfo v.info.index := by
  induction h with
  | unready => simp
  | stopped inPass _ | ready inPass _ _ =>
    intro v hv
    rw [(inPass v hv).1]
    exact ⟨Nat.le_refl _, rfl⟩
  | next inPass _ _ ih =>
    intro v hv
    rcases List.mem_append.1 hv with hv | hv
    · rw [(inPass v hv).1]
      exact ⟨Nat.le_refl _, rfl⟩
    · exact ⟨Nat.le_of_succ_le (ih v hv).1, (ih v hv).2⟩

theorem answer (h : t.Course r index p vs ready) :
    ∀ v ∈ vs, ∃ s, v.answer = (r.ask v.info v.path? v.text s).1 := by
  induction h with
  | unready => simp
  | stopped inPass _ | ready inPass _ _ => exact fun v hv => (inPass v hv).2
  | next inPass _ _ ih =>
    intro v hv
    rcases List.mem_append.1 hv with hv | hv
    · exact (inPass v hv).2
    · exact ih v hv

end Course

end Template

namespace Patchwork

variable {d : Delimiters} {p : Patchwork} {vs : List Visit}

theorem Rooted.nodup {around : Path} {lo : Nat} (h : Rooted around lo p) : p.paths.Nodup := by
  refine h.pairwise.imp ?_
  rintro a b hab rfl
  exact hab List.prefix_rfl

/-- In one pass no tag is visited behind one that is around it, nor twice. -/
theorem Attended.pairwise {around : Path} {lo : Nat} (h : Attended d p.tags vs)
    (hp : Rooted around lo p) : vs.Pairwise fun v w =>
      ∀ a, v.path? = some a → ∀ b, w.path? = some b → ¬ a <+: b :=
  List.pairwise_filterMap.1 (hp.pairwise.sublist h.sublist)

/-- A tag is visited with a text that begins as the tag does, and with the very text of the tag if
there are no regions in it. -/
theorem Attended.begins {v : Visit} {path : Path} (h : Attended d p.tags vs) (hv : v ∈ vs)
    (hpath : v.path? = some path) : ∃ x, (path, x) ∈ p.tags ∧ x.lead <+: v.text ∧
      ∀ u, x = plain u → v.text = u := by
  obtain ⟨x, hx, hturns⟩ := h.text v hv path hpath
  refine ⟨x, hx, hturns.lead, ?_⟩
  rintro u rfl
  cases hturns.eq_plain
  rfl

end Patchwork

namespace Template.Course

variable {t : Template} {r : Responder σ} {index : Nat} {p : Patchwork} {vs : List Visit}
  {ready : Bool}

theorem begins (h : t.Course r index p vs ready) {v : Visit} {path : Path} (hv : v ∈ vs)
    (hpath : v.path? = some path) : ∃ x, (path, x) ∈ p.tags ∧ x.lead <+: v.text ∧
      ∀ u, x = .plain u → v.text = u := by
  induction h with
  | unready => cases hv
  | stopped _ stopped => exact stopped.attended.begins hv hpath
  | ready _ rewritten _ => exact rewritten.fates.attended.begins hv hpath
  | next _ rewritten _ ih =>
    rcases List.mem_append.1 hv with hv | hv
    · exact rewritten.fates.attended.begins hv hpath
    · obtain ⟨x, hx, hlead, hplain⟩ := ih hv
      obtain ⟨inner, hinner, hturns⟩ := rewritten.fates.of_left hx
      refine ⟨inner, hinner, hturns.lead.trans hlead, ?_⟩
      rintro u rfl
      exact hplain u hturns.eq_plain

theorem pairwise (h : t.Course r index p vs ready) (hp : p.Rooted [] 0) : vs.Pairwise Behind := by
  have hpass {vs : List Visit} {p : Patchwork} (hp : p.Rooted [] 0)
      (h : Patchwork.Attended t.delimiters p.tags vs) : vs.Pairwise Behind :=
    (h.pairwise hp).imp fun hvw a b ha hb hab => absurd hab (hvw a ha b hb)
  induction h with
  | unready => exact List.Pairwise.nil
  | stopped _ stopped => exact hpass hp stopped.attended
  | ready _ rewritten _ => exact hpass hp rewritten.fates.attended
  | @next index p q vs ws _ inPass rewritten more ih =>
    have hq := rewritten.rooted hp
    have hfates := rewritten.fates
    refine List.pairwise_append.2 ⟨hpass hp hfates.attended, ih hq, ?_⟩
    intro v hv w hw a b ha hb hab
    obtain ⟨_, hmem, -⟩ := hfates.of_visit hv ha
    obtain ⟨i, path, -, rfl⟩ := hp.mem_tags hmem
    obtain ⟨x, hx, -, htext⟩ := more.begins hw hb
    -- the tag is still around the one visited later, so it has stayed, with nothing inside it
    obtain ⟨y, hy, hby⟩ := hq.around_mem (Patchwork.mem_paths.2 ⟨x, hx⟩) hab (by simp)
    obtain ⟨hstays, rfl⟩ := hfates.of_visit_left hp.nodup hv ha hy
    rcases hby with rfl | hby
    · obtain ⟨-, rfl⟩ := hfates.of_visit_left hp.nodup hv ha hx
      refine ⟨rfl, ?_, htext _ rfl, hstays⟩
      have := (more.index_le w hw).1
      rw [(inPass v hv).1]
      exact this
    · simp [Patchwork.paths] at hby

/-- No tag of the template is left out on the way to a text in which everything is ready. -/
theorem visited (h : t.Course r index p vs true) {path : Path} (hpath : path ∈ p.paths) :
    ∃ v ∈ vs, v.path? = some path ∧ ∃ a, v.outcome? = some a ∧ a ≠ .pending v.text := by
  generalize hr : true = ready at h
  induction h with
  | unready | stopped => cases hr
  | ready _ rewritten plain =>
    rcases rewritten.fates.of_tag hpath with hq | hv
    · rw [Patchwork.eq_plain_of_isPlain plain] at hq
      simp at hq
    · exact hv
  | next _ rewritten _ ih =>
    rcases rewritten.fates.of_tag hpath with hq | ⟨v, hv, hown, ho⟩
    · obtain ⟨v, hv, hown, ho⟩ := ih hq hr
      exact ⟨v, List.mem_append_right _ hv, hown, ho⟩
    · exact ⟨v, List.mem_append_left _ hv, hown, ho⟩

end Template.Course

namespace Template

variable {t : Template} {r : Responder σ} {p : Patchwork} {vs : List Visit} {ready : Bool}

theorem Course.tag?_eq (h : t.Course r index p vs ready) {v : Visit} (hv : v ∈ vs) :
    v.tag? = (SingleTag.ofText t.delimiters v.text).toOption := by
  rw [Visit.tag?, (h.index_le v hv).2]
  rfl

theorem Course.alike (h : t.Course r index p vs ready) (hp : p.Rooted [] 0) :
    ∀ v ∈ vs, ∀ w ∈ vs, Alike v w := by
  have hbehind := h.pairwise hp
  have hsame : ∀ v ∈ vs, Alike v v := fun _ _ _ _ _ => rfl
  have hforth : vs.Pairwise Alike := by
    refine hbehind.imp fun hvw path hv hw => ?_
    exact (hvw path path hv hw List.prefix_rfl).2.2.1.symm
  have hback : vs.Pairwise (flip Alike) := by
    refine hbehind.imp fun hvw path hw hv => ?_
    exact (hvw path path hv hw List.prefix_rfl).2.2.1
  exact fun v hv w hw => hforth.forall_of_forall_of_flip hsame hback hv hw

theorem mem_paths_of_at? (hp : Depicts t.delimiters 0 p t.outline.tags) {path : Path} {node : Node}
    (hpath : path ≠ []) (hnode : t.at? path = some node) : path ∈ (p.label [] 0).paths := by
  cases path with
  | nil => exact absurd rfl hpath
  | cons i path =>
    have hat := t.outline.at?_cons i path
    cases hf : t.outline.tags.find? i path with
    | none =>
      rw [hf] at hat
      have := hat.symm.trans hnode
      cases this
    | some found =>
      have := Patchwork.mem_paths_label hp [] 0 hf
      rwa [List.nil_append, Nat.zero_add] at this

end Template

end TagMarkup
