import TagMarkup.Proofs.Rendering.Placement

/-! The regions of a run, at every moment of it, as offsets of the live text: those that are left in
what has been worked through, those that the pass is inside of, and those to come. They are nested
and in order, begin and end where the text can be cut, and none is empty in which there is a tag
(`regions_stand`). A group is empty when all of its tags have been left out, until the pass leaves
it (`drained_group_empty`). -/

namespace TagMarkup

variable {σ : Type}

/-- Where an offset of the agenda is in the live text, if it is not in front of it. -/
def Live.shift (live : Live σ) (position : Nat) : Nat := (position + live.growth).toNat

theorem Live.shift_eq {live : Live σ} {position n : Nat} (h : (position : Int) + live.growth = n) :
    live.shift position = n := by
  rw [shift, h]
  rfl

def Live.shiftAll (live : Live σ) (a : Agenda) : Agenda :=
  a.map fun region => ⟨live.shift region.start, live.shift region.stop, region.kind⟩

namespace Moment

/-- The agenda `inside` of the innermost region with the regions around it. -/
def enclose (live : Live σ) : List Entered → Agenda → Agenda
  | [], inside => inside
  | e :: entered, inside =>
    enclose live entered (e.left ++
      .cons ⟨e.start, live.shift e.region.stop, e.region.kind⟩ inside (live.shiftAll e.rest))

/-- All regions at a moment, by where they are in the live text. -/
def agenda (m : Moment σ) : Agenda :=
  enclose m.live m.place.entered (m.place.left ++ m.live.shiftAll m.place.todo)

/-- The offsets that the pass has still to find in the live text. -/
def ahead (m : Moment σ) : List Nat :=
  let offsets (a : Agenda) := a.toList.flatMap fun region => [region.start, region.stop]
  offsets m.place.todo ++ m.place.entered.flatMap fun e => e.region.stop :: offsets e.rest

end Moment

/-- No tag is empty, and no group in which a tag is left. -/
def Agenda.Filled : Agenda → Prop
  | .nil => True
  | .cons region inner rest =>
    ((region.kind = .group → ∃ inside ∈ inner.toList, inside.kind ≠ .group) →
      region.start < region.stop) ∧ Filled inner ∧ Filled rest

namespace Patchwork

/-- No tag is empty. -/
def Filled : Patchwork → Prop
  | plain _ => True
  | patch _ kind inner rest => (kind ≠ .group → inner.text ≠ []) ∧ inner.Filled ∧ rest.Filled

theorem Filled.append {p q : Patchwork} (hp : p.Filled) (hq : q.Filled) : (p ++ q).Filled := by
  induction p with
  | plain t => cases q <;> exact hq
  | patch lead kind inner rest _ ih => exact ⟨hp.1, hp.2.1, ih hp.2.2⟩

theorem Solid.filled {p : Patchwork} (h : p.Solid) : p.Filled := by
  induction p with
  | plain t => trivial
  | patch lead kind inner rest ihi ihr =>
    exact ⟨fun _ => h.1.text_ne_nil h.2.1, ihi h.2.1, ihr h.2.2⟩

theorem Filled.text_ne_nil {p : Patchwork} (h : p.Filled) {base : Nat}
    (ht : ∃ region ∈ (p.agenda base).toList, region.kind ≠ .group) : p.text ≠ [] := by
  induction p generalizing base with
  | plain t => simp [Forest.toList] at ht
  | patch lead kind inner rest ihi ihr =>
    obtain ⟨region, hmem, hk⟩ := ht
    simp only [agenda, Forest.toList, List.mem_cons, List.mem_append] at hmem
    rcases hmem with rfl | hmem | hmem
    · simp [h.1 hk]
    · simp [ihi h.2.1 ⟨region, hmem, hk⟩]
    · simp [ihr h.2.2 ⟨region, hmem, hk⟩]

theorem Filled.agenda {p : Patchwork} (h : p.Filled) (base : Nat) : (p.agenda base).Filled := by
  induction p generalizing base with
  | plain t => trivial
  | patch lead kind inner rest ihi ihr =>
    refine ⟨fun hk => ?_, ihi h.2.1 _, ihr h.2.2 _⟩
    have hne : inner.text ≠ [] := by
      by_cases hg : kind = .group
      · exact h.2.1.text_ne_nil (hk hg)
      · exact h.1 hg
    have := Text.bytes_pos.2 hne
    show base + lead.bytes < base + lead.bytes + inner.text.bytes
    omega

theorem shiftAll_agenda {live : Live σ} (p : Patchwork) {base n : Nat}
    (h : (base : Int) + live.growth = n) : live.shiftAll (p.agenda base) = p.agenda n := by
  induction p generalizing base n with
  | plain t => rfl
  | patch lead kind inner rest ihi ihr =>
    have hstart : ((base + lead.bytes : Nat) : Int) + live.growth = (n + lead.bytes : Nat) := by
      omega
    have hstop : ((base + lead.bytes + inner.text.bytes : Nat) : Int) + live.growth =
        (n + lead.bytes + inner.text.bytes : Nat) := by omega
    show Forest.cons ⟨live.shift _, live.shift _, kind⟩ (live.shiftAll _) (live.shiftAll _) = _
    rw [Live.shift_eq hstart, Live.shift_eq hstop, ihi hstart, ihr hstop]
    rfl

theorem le_offsets (p : Patchwork) {base : Nat} :
    ∀ region ∈ (p.agenda base).toList, base ≤ region.start ∧ base ≤ region.stop := by
  induction p generalizing base with
  | plain t => simp [Forest.toList]
  | patch lead kind inner rest ihi ihr =>
    simp only [Patchwork.agenda, Forest.toList, List.mem_cons, List.mem_append]
    rintro region (rfl | hmem | hmem)
    · exact ⟨by simp, by simp [Nat.add_assoc]⟩
    · have := ihi region hmem
      omega
    · have := ihr region hmem
      omega

end Patchwork

variable {live : Live σ} {entered : List Entered} {before after lead : Text} {stop : Nat}

/-- A patchwork in the innermost region makes one of the whole text with the regions around it. -/
theorem Around.enclose (h : Around entered before after stop lead) {inner : Patchwork}
    (hinner : inner.Filled) (hlead : lead <+: inner.text)
    (hgrowth : (stop : Int) + live.growth = (before ++ inner.text).bytes) :
    ∃ p : Patchwork, p.text = before ++ (inner.text ++ after) ∧ p.Filled ∧
      p.agenda 0 = Moment.enclose live entered (inner.agenda before.bytes) := by
  induction h generalizing inner with
  | nil stop lead => exact ⟨inner, by simp, hinner, rfl⟩
  | @cons entered before after lead region passed rest hpassed hrest htag _ ih =>
    let whole := passed ++ Patchwork.patch [] region.kind inner rest
    have hne : region.kind ≠ .group → inner.text ≠ [] := by
      intro hk ht
      rw [ht] at hlead
      exact htag hk (List.prefix_nil.1 hlead)
    have hfilled : whole.Filled := hpassed.filled.append ⟨hne, hinner, hrest.filled⟩
    have hprefix : passed.lead <+: whole.text :=
      (passed.lead_isPrefix_append _).trans whole.lead_isPrefix_text
    have hwhole : ((region.stop + rest.text.bytes : Nat) : Int) + live.growth =
        (before ++ whole.text).bytes := by
      simp only [whole, Text.bytes_append, Patchwork.text_append, Patchwork.text_patch] at hgrowth ⊢
      simp only [Text.bytes_nil]
      omega
    obtain ⟨p, htext, hp, hagenda⟩ := ih hfilled hprefix hwhole
    refine ⟨p, by simp [htext, whole], hp, ?_⟩
    rw [hagenda]
    simp only [Moment.enclose]
    congr 1
    rw [Live.shift_eq hgrowth, Patchwork.shiftAll_agenda rest hgrowth]
    simp [whole, Patchwork.agenda, Nat.add_assoc]

theorem Around.le_ahead (h : Around entered before after stop lead) :
    ∀ e ∈ entered, stop ≤ e.region.stop ∧
      ∀ region ∈ e.rest.toList, stop ≤ region.start ∧ stop ≤ region.stop := by
  induction h with
  | nil => simp
  | @cons entered before after lead region passed rest _ _ _ _ ih =>
    intro e he
    rcases List.mem_cons.1 he with rfl | he
    · exact ⟨Nat.le_refl _, rest.le_offsets⟩
    · obtain ⟨hstop, hrest⟩ := ih e he
      refine ⟨by omega, fun region hmem => ?_⟩
      have := hrest region hmem
      omega

/-- The regions at a moment are where the text can be cut, one after another and one inside another;
none is empty but a group in which no tag is left, which is gone when the pass comes to its end; and
the offsets to come are found in the live text. -/
structure Moment.Stands (m : Moment σ) : Prop where
  fits : m.agenda.Fits m.live.text 0 m.live.text.bytes
  filled : m.agenda.Filled
  ahead : ∀ n ∈ m.ahead, 0 ≤ (n : Int) + m.live.growth

theorem Placed.agenda_eq {m : Moment σ} {done todo : Patchwork} {base : Nat}
    (h : Placed m before after done todo base) :
    m.agenda = Moment.enclose m.live m.place.entered ((done ++ todo).agenda before.bytes) := by
  unfold Moment.agenda
  rw [h.left_eq, h.todo_eq, Patchwork.shiftAll_agenda todo h.growth]
  simp

theorem Moment.Fitted.stands {m : Moment σ} (h : m.Fitted) : m.Stands := by
  obtain ⟨before, after, done, todo, base, h⟩ := h
  have hgrowth := h.growth
  have hstop : ((base + todo.text.bytes : Nat) : Int) + m.live.growth =
      (before ++ (done ++ todo).text).bytes := by
    simp only [Text.bytes_append, Patchwork.text_append] at hgrowth ⊢
    omega
  obtain ⟨p, htext, hp, hagenda⟩ := h.around.enclose
    (h.solid_done.filled.append h.solid_todo.filled) (Patchwork.lead_isPrefix_text _) hstop
  rw [← h.agenda_eq] at hagenda
  refine ⟨?_, ?_, ?_⟩
  · refine Agenda.fits_iff_exists_patchwork.2 ⟨p, ?_, hagenda⟩
    rw [htext, h.text, Patchwork.text_append, List.append_assoc]
  · rw [← hagenda]
    exact hp.agenda 0
  · intro n hn
    have hbase : base ≤ n := by
      simp only [ahead, h.todo_eq, List.mem_append, List.mem_flatMap, List.mem_cons,
        List.not_mem_nil, or_false] at hn
      rcases hn with ⟨region, hmem, hn⟩ | ⟨e, he, hn⟩
      · have := todo.le_offsets region hmem
        omega
      · obtain ⟨hend, hrest⟩ := h.around.le_ahead e he
        rcases hn with rfl | ⟨region, hmem, hn⟩
        · omega
        · have := hrest region hmem
          omega
    omega

theorem Moment.Fitted.start_lt_stop {m : Moment σ} (h : m.Fitted) (hm : m.place.entered = []) :
    ∀ region ∈ m.agenda.toList, region.start < region.stop := by
  obtain ⟨before, after, done, todo, base, h⟩ := h
  rw [h.agenda_eq, hm]
  exact (Patchwork.solid_append.2 ⟨h.solid_done, h.solid_todo⟩).start_lt_stop _

/-- At every moment of a run the regions stand in the live text, between two passes none is empty,
and so the run never fails to cut its text. -/
theorem Template.regions_stand (t : Template) (r : Responder σ) (s : σ) :
    (∀ index fallback m, t.Reaches r s index fallback m → m.Stands ∧
      (m.place.entered = [] → ∀ region ∈ m.agenda.toList, region.start < region.stop)) ∧
    ∀ index start stop, (t.runWith r s).result ≠ .error (.range index start stop) := by
  constructor
  · intro index fallback m h
    exact ⟨h.fitted.stands, h.fitted.start_lt_stop⟩
  · intro index start stop herror
    obtain ⟨i, cause, he⟩ := runWith_aborted herror
    cases he

/-- The tag `a` becomes two tags, and both of them are left out. -/
def drainer : Responder Unit where
  ask _ _ text _ :=
    if text = "[[a]]".toList then (.ok (.pending "[[b]][[c]]".toList), ())
    else (.ok (.final []), ())

/-- A group is empty in the middle of a pass, when nothing is left of the tags in it and the pass
has not left it yet. -/
theorem drained_group_empty : ∃ t, Template.ofText "[[a]]".toList = .ok t ∧
    ∃ m, t.Reaches drainer () 1 .retry m ∧ m.live.text = [] ∧
      m.agenda = .tree ⟨0, 0, .group⟩ .nil := by
  let t : Template := ⟨["[[a]]".toList], .single, .standard,
    ⟨5, .tree ⟨.inline, ⟨['a'], []⟩, 0, 5⟩ .nil⟩, [], by decide +kernel⟩
  let b : Region := ⟨0, 5, .tag none⟩
  let c : Region := ⟨5, 10, .tag none⟩
  let group : Region := ⟨0, 10, .group⟩
  let first : Moment Unit := ⟨⟨[], .tree group (.cons b .nil (.tree c .nil)), .nil⟩,
    ⟨"[[b]][[c]]".toList, [0, 10], 5, false, ()⟩⟩
  let last : Moment Unit :=
    ⟨⟨[⟨group, 0, .nil, .nil⟩], .nil, .nil⟩, ⟨[], [0, 0], -10, true, ()⟩⟩
  refine ⟨t, Template.read_eq_ok.2 ⟨rfl, rfl, rfl, rfl⟩, last, ?_, rfl, by decide +kernel⟩
  have hfirst : t.Reaches drainer () 0 .retry first :=
    Template.Reaches.start.steps (Moment.steps_of_after? (n := 2) (by decide +kernel))
  have hnext := hfirst.next ⟨rfl, rfl⟩ rfl (by decide)
  exact hnext.steps (Moment.steps_of_after? (n := 5) (by decide +kernel))

end TagMarkup
