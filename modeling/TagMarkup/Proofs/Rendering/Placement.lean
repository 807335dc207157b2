import TagMarkup.Proofs.Patchwork.Labelled
import TagMarkup.Proofs.Rendering.Moment

/-! Where regions stand while a run works on its text. At every moment the text is that of
patchworks, one around the other: what has been worked through, what is still to come, and the same
for every region around them. So the offsets of the agenda, moved by the growth of the text, are
those of regions in the live text. -/

namespace TagMarkup

open Relation (ReflTransGen)

variable {σ : Type}

/-- The regions that a pass is inside of, when `before` and `after` are the texts outside the
innermost one, which ends at the offset `stop` of the agenda and has the text `lead` in front of the
first region in it. -/
inductive Around : List Entered → Text → Text → Nat → Text → Prop
  | nil (stop : Nat) (lead : Text) : Around [] [] [] stop lead
  | cons {entered : List Entered} {before after lead : Text} (region : Region)
    (left rest : Patchwork) (solid_left : left.Solid) (solid_rest : rest.Solid)
    (tag_lead : region.kind ≠ .group → lead ≠ [])
    (outer : Around entered before after (region.stop + rest.text.bytes) left.lead) :
    Around (⟨region, (before ++ left.text).bytes, left.agenda before.bytes,
      rest.agenda region.stop⟩ :: entered) (before ++ left.text) (rest.text ++ after)
      region.stop lead

theorem Around.mono {entered : List Entered} {before after lead lead' : Text} {stop : Nat}
    (h : Around entered before after stop lead) (hl : lead <+: lead') :
    Around entered before after stop lead' := by
  cases h with
  | nil => exact .nil _ _
  | cons region left rest hleft hrest htag houter =>
    refine .cons region left rest hleft hrest (fun hk => ?_) houter
    rintro rfl
    exact htag hk (List.prefix_nil.1 hl)

/-- In the innermost region `done` has been worked through and `todo` has not, which stands at the
offset `base` of the agenda. -/
structure Placed (m : Moment σ) (before after : Text) (done todo : Patchwork) (base : Nat) :
    Prop where
  text : m.live.text = before ++ (done.text ++ (todo.text ++ after))
  left_eq : m.place.left = done.agenda before.bytes
  todo_eq : m.place.todo = todo.agenda base
  growth : (base : Int) + m.live.growth = (before ++ done.text).bytes
  solid_done : done.Solid
  solid_todo : todo.Solid
  around : Around m.place.entered before after (base + todo.text.bytes) (done ++ todo).lead

/-- The regions of the agenda stand in the live text. -/
def Moment.Fitted (m : Moment σ) : Prop :=
  ∃ before after left todo base, Placed m before after left todo base

theorem fitted_start {scene : Scene} {p : Patchwork} (state : σ) (hp : p.Solid)
    (htext : p.text = scene.text) (hagenda : p.agenda 0 = scene.agenda) :
    (Moment.start scene state).Fitted :=
  ⟨[], [], .plain [], p, 0, by simp [Moment.start, htext], rfl, hagenda.symm, rfl, trivial, hp,
    .nil _ _⟩

theorem Moment.Fitted.scene {m : Moment σ} (h : m.Fitted) (hover : m.place.IsOver) :
    ∃ p : Patchwork, p.Solid ∧ p.text = m.live.text ∧ p.agenda 0 = m.place.left := by
  obtain ⟨before, after, done, todo, base, h⟩ := h
  obtain ⟨hentered, htodo⟩ := hover
  have haround := h.around
  rw [hentered] at haround
  cases haround
  have htodo : todo.isPlain = true := Patchwork.agenda_eq_nil.1 (h.todo_eq.symm.trans htodo)
  refine ⟨done ++ todo, ?_, ?_, ?_⟩
  · exact Patchwork.solid_append.2 ⟨h.solid_done, h.solid_todo⟩
  · simp [h.text]
  · rw [h.left_eq, Patchwork.eq_plain_of_isPlain htodo]
    simp

/-- A step replaces a text that is not empty, and the boundaries of the fragments move with it, or
it leaves all as it is. -/
def Moment.Edits (m m' : Moment σ) : Prop :=
  (m'.live.text = m.live.text ∧ m'.live.boundaries = m.live.boundaries) ∨
    ∃ before old new after, m.live.text = before ++ (old ++ after) ∧ old ≠ [] ∧
      m'.live.text = before ++ (new ++ after) ∧ m'.live.boundaries = m.live.boundaries.map
        (Fragments.move before.bytes (before.bytes + old.bytes) new.bytes)

variable {r : Responder σ} {info : PassInfo} {fallback : Fallback} {live : Live σ}
  {entered : List Entered} {left inner rest : Agenda} {region : Region}

theorem Moment.Fitted.enter (h : Moment.Fitted ⟨⟨entered, left, .cons region inner rest⟩, live⟩) :
    ∃ start, (Pass.locate region.start).run live = (.ok start, live) ∧
      Moment.Fitted ⟨⟨⟨region, start, left, rest⟩ :: entered, .nil, inner⟩, live⟩ := by
  obtain ⟨before, after, done, todo, base, h⟩ := h
  have htodo := h.todo_eq
  cases todo with
  | plain t => cases htodo
  | patch lead kind p q =>
    cases htodo
    have hgrowth := h.growth
    have htext := h.text
    have hleft : left = done.agenda before.bytes := h.left_eq
    obtain ⟨hkind, hp, hq⟩ := h.solid_todo
    simp only [Patchwork.text_patch, Text.bytes_append, List.append_assoc] at hgrowth htext
    -- the text in front of the region belongs to what has been worked through
    let passed := done ++ Patchwork.plain lead
    have hpassed : passed.Solid := Patchwork.solid_append.2 ⟨h.solid_done, trivial⟩
    have hagenda : passed.agenda before.bytes = left := by simp [passed, hleft]
    have houter : Around entered before after
        (base + lead.bytes + p.text.bytes + q.text.bytes) passed.lead := by
      have haround := h.around
      rw [Patchwork.lead_append_patch] at haround
      simpa [Nat.add_assoc] using haround
    have hlead : kind ≠ .group → (Patchwork.plain [] ++ p).lead ≠ [] := by
      rw [Patchwork.plain_nil_append]
      cases kind with
      | group => exact fun h => absurd rfl h
      | tag path? => exact fun _ => hkind
    have hinner := Around.cons ⟨base + lead.bytes, base + lead.bytes + p.text.bytes, kind⟩ passed q
      hpassed hq hlead houter
    rw [hagenda] at hinner
    refine ⟨(before ++ passed.text).bytes, Patchwork.run_locate ?_, ?_⟩
    · simp [passed]
      omega
    · refine ⟨before ++ passed.text, q.text ++ after, .plain [], p, base + lead.bytes, ?_, rfl,
        rfl, ?_, trivial, hp, hinner⟩
      · simp [passed, htext]
      · simp [passed]
        omega

theorem leave_agrees {before after : Text} {p : Patchwork}
    (ht : live.text = before ++ (p.text ++ after))
    (hstop : (region.stop : Int) + live.growth = (before ++ p.text).bytes) :
    Patchwork.Agrees live (Pass.leave r info fallback region before.bytes (p.agenda before.bytes))
      (Patchwork.settle r info fallback region.kind p) fun out live' new =>
        (Patchwork.Becomes live before after p new out live' ∧
          Patchwork.Follows live region.kind before p new live') ∧
        Patchwork.Left info.delimiters region.kind p new := by
  have hlocate := Patchwork.run_locate hstop
  rw [Text.bytes_append] at hlocate
  refine Patchwork.Agrees.of_run hlocate rfl rfl ?_
  exact (Patchwork.settle_agrees region.kind ht).leads (Patchwork.settle_left region.kind p)

/-- The end of a region is found, and the text of the region gives way to what settles it. -/
theorem Moment.Fitted.leave {e : Entered} (r : Responder σ) (info : PassInfo)
    (fallback : Fallback) (h : Moment.Fitted ⟨⟨e :: entered, left, .nil⟩, live⟩) :
    match (Pass.leave r info fallback e.region e.start left).run live with
    | (.ok out, live') => Moment.Fitted ⟨⟨entered, e.left ++ out, e.rest⟩, live'⟩ ∧
        Moment.Edits ⟨⟨e :: entered, left, .nil⟩, live⟩ ⟨⟨entered, e.left ++ out, e.rest⟩, live'⟩
    | (.error error, _) => ∃ cause, error = .noAnswer cause := by
  obtain ⟨before, after, done, todo, base, h⟩ := h
  have htodo : todo.isPlain = true := Patchwork.agenda_eq_nil.1 h.todo_eq.symm
  let p := done ++ todo
  have hp : p.Solid := Patchwork.solid_append.2 ⟨h.solid_done, h.solid_todo⟩
  have hagenda : left = p.agenda before.bytes := by
    simp only [p]
    rw [Patchwork.eq_plain_of_isPlain htodo]
    simpa using h.left_eq
  have htext : live.text = before ++ (p.text ++ after) := by simpa [p] using h.text
  have hgrowth : (base : Int) + live.growth = (before ++ done.text).bytes := h.growth
  have haround : Around (e :: entered) before after (base + todo.text.bytes) p.lead := h.around
  generalize hstop : base + todo.text.bytes = stop at haround
  cases haround with
  | @cons _ before after _ region passed rest hpassed hrest htag houter =>
  have hend : (region.stop : Int) + live.growth = (before ++ passed.text ++ p.text).bytes := by
    simp only [p, Text.bytes_append, Patchwork.text_append] at hgrowth ⊢
    omega
  have hagrees : Patchwork.Agrees live
    (Pass.leave r info fallback region (before ++ passed.text).bytes _) _ _ :=
    leave_agrees htext hend
  rw [← hagenda] at hagrees
  unfold Patchwork.Agrees at hagrees
  generalize (Patchwork.settle r info fallback region.kind p).run ⟨live.ready, live.state⟩ = result
    at hagrees
  obtain ⟨cause | new, standing⟩ := result
  · obtain ⟨live', hrun, -⟩ := hagrees
    simp only [hrun]
    exact ⟨cause, rfl⟩
  · obtain ⟨out, live', hrun, -, ⟨hbecomes, hfollows⟩, hnew⟩ := hagrees
    simp only [hrun]
    have hkind (hk : region.kind ≠ .group) : Patchwork.Holds region.kind p := by
      cases hr : region.kind with
      | group => exact absurd hr hk
      | tag path? => exact htag hk
    have hlead : passed.lead <+: (passed ++ new ++ rest).lead := by
      rw [Patchwork.append_assoc]
      exact passed.lead_isPrefix_append _
    refine ⟨⟨before, after, passed ++ new, rest, region.stop, ?_, ?_, rfl, ?_, ?_, hrest,
      houter.mono hlead⟩, ?_⟩
    · simpa using hbecomes.text
    · simp [hbecomes.left]
    · have hnext := hbecomes.growth
      simp only [Text.bytes_append, Patchwork.text_append] at hend ⊢
      omega
    · exact Patchwork.solid_append.2 ⟨hpassed, hnew.solid hkind hp⟩
    · rcases hfollows with ⟨hsame, hboundaries⟩ | ⟨hk, hboundaries⟩
      · exact .inl ⟨by rw [hbecomes.text, htext, hsame], hboundaries⟩
      · exact .inr ⟨_, p.text, new.text, _, htext, Patchwork.text_ne_nil_of_lead (htag hk),
          hbecomes.text, hboundaries⟩

/-- Every step goes on to a moment at which the regions stand again, or stops for want of an
answer. -/
theorem Moment.Fitted.next {m : Moment σ} {act : PassM σ Place} (h : m.Fitted)
    (hact : m.place.step r info fallback = some act) :
    match act.run m.live with
    | (.ok place, live) => Moment.Fitted ⟨place, live⟩ ∧ m.Edits ⟨place, live⟩
    | (.error e, _) => ∃ cause, e = .noAnswer cause := by
  obtain ⟨⟨entered, left, todo⟩, live⟩ := m
  cases todo with
  | cons region inner rest =>
    obtain ⟨start, hlocate, hfitted⟩ := h.enter
    cases hact
    rw [run_bind]
    simp only [hlocate]
    exact ⟨hfitted, .inl ⟨rfl, rfl⟩⟩
  | nil =>
    cases entered with
    | nil => cases hact
    | cons e entered =>
      have hleave := h.leave r info fallback
      cases hact
      rw [run_bind]
      simp only
      generalize (Pass.leave r info fallback e.region e.start left).run live = result at hleave ⊢
      obtain ⟨error | out, live'⟩ := result
      · exact hleave
      · exact hleave

theorem Moment.Fitted.step {m m' : Moment σ} (h : m.Fitted) (hs : m.Step r info fallback m') :
    m'.Fitted ∧ m.Edits m' := by
  obtain ⟨act, hact, hrun⟩ := hs
  have hnext := h.next hact
  rw [hrun] at hnext
  exact hnext

theorem Moment.Fitted.fails {m : Moment σ} {e : PassError} (h : m.Fitted)
    (hf : m.Fails r info fallback e) : ∃ cause, e = .noAnswer cause := by
  obtain ⟨act, live, hact, hrun⟩ := hf
  have hnext := h.next hact
  rw [hrun] at hnext
  exact hnext

namespace Template

variable {t : Template} {s : σ} {index : Nat} {m : Moment σ}

theorem Reaches.fitted (h : t.Reaches r s index fallback m) : m.Fitted := by
  induction h with
  | start =>
    obtain ⟨p, htext, hdepicts, hagenda⟩ := t.exists_patchwork
    exact fitted_start _ (Patchwork.solid_label hdepicts [] 0) ((p.text_label ..).trans htext)
      hagenda
  | step _ hstep ih => exact (ih.step hstep).1
  | next _ hover _ _ ih =>
    obtain ⟨p, hp, htext, hagenda⟩ := ih.scene hover
    exact fitted_start _ hp htext hagenda

/-- A run without an outcome has stopped at a tag without an answer, in the pass after those that
have ended, and the fallback in that pass is `abort`. -/
theorem runWith_stopped {e : RunError} (h : (t.runWith r s).result = .error e) :
    ∃ index cause m, index = (t.runWith r s).intermediate.length ∧ e = .aborted index cause ∧
      t.Reaches r s index .abort m := by
  obtain ⟨index, fallback, m, e', hindex, hm, hf, rfl⟩ := (t.runWith_traced r s).error _ h
  obtain ⟨cause, rfl⟩ := hm.fitted.fails hf
  obtain rfl := hf.eq_abort
  exact ⟨index, cause, m, by rw [hindex, Nat.zero_add], rfl, hm⟩

theorem runWith_aborted {e : RunError} (h : (t.runWith r s).result = .error e) :
    ∃ index cause, e = .aborted index cause := by
  obtain ⟨index, cause, -, -, he, -⟩ := runWith_stopped h
  exact ⟨index, cause, he⟩

end Template

end TagMarkup
