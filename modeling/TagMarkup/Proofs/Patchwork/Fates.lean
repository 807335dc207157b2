import TagMarkup.Proofs.Patchwork.Labelled
import TagMarkup.Proofs.Patchwork.Rewriting

/-! What becomes of the template's tags in a pass: each of them waits, is visited and stays, or is
visited and gone, in the order in which the tags stand in the patchwork. -/

namespace TagMarkup.Patchwork

variable {d : Delimiters}

/-- Some pass makes the one patchwork of the other. -/
def Turns (d : Delimiters) (p q : Patchwork) : Prop := ∃ vs, Rewritten d p vs q

theorem Turns.eq_plain {t : Text} {q : Patchwork} (h : Turns d (plain t) q) : q = plain t := by
  obtain ⟨vs, h⟩ := h
  cases h
  rfl

theorem Turns.lead {p q : Patchwork} (h : Turns d p q) : p.lead <+: q.lead := by
  obtain ⟨vs, h⟩ := h
  cases h with
  | plain t => exact List.prefix_rfl
  | patch lead kind inside settled after =>
    rw [append_assoc, lead_plain_append]
    exact List.prefix_append _ _

/-- The tags of the template before a pass, its visits, and the tags after it. -/
inductive Fates (d : Delimiters) :
    List (Path × Patchwork) → List Visit → List (Path × Patchwork) → Prop
  | nil : Fates d [] [] []
  | pathless {ts us : List (Path × Patchwork)} {vs : List Visit} (v : Visit)
    (none : v.path? = none) (rest : Fates d ts vs us) : Fates d ts (v :: vs) us
  | waits {ts us : List (Path × Patchwork)} {vs : List Visit} (path : Path) {inner x : Patchwork}
    (turns : Turns d inner x) (rest : Fates d ts vs us) :
    Fates d ((path, inner) :: ts) vs ((path, x) :: us)
  | stays {ts us : List (Path × Patchwork)} {vs : List Visit} (v : Visit) {path : Path}
    {inner : Patchwork} (own : v.path? = some path) (turns : Turns d inner (plain v.text))
    (outcome : v.outcome? = some (.pending v.text)) (rest : Fates d ts vs us) :
    Fates d ((path, inner) :: ts) (v :: vs) ((path, plain v.text) :: us)
  | gone {ts us : List (Path × Patchwork)} {vs : List Visit} (v : Visit) {path : Path}
    {inner : Patchwork} {a : Answer} (own : v.path? = some path)
    (turns : Turns d inner (plain v.text)) (outcome : v.outcome? = some a)
    (changed : a ≠ .pending v.text) (rest : Fates d ts vs us) :
    Fates d ((path, inner) :: ts) (v :: vs) us

namespace Fates

variable {ts ts' us us' : List (Path × Patchwork)} {vs vs' : List Visit} {path : Path}
  {x : Patchwork} {v : Visit}

theorem append (h : Fates d ts vs us) (h' : Fates d ts' vs' us') :
    Fates d (ts ++ ts') (vs ++ vs') (us ++ us') := by
  induction h with
  | nil => exact h'
  | pathless v none _ ih => exact .pathless v none ih
  | waits path turns _ ih => exact .waits path turns ih
  | stays v own turns outcome _ ih => exact .stays v own turns outcome ih
  | gone v own turns outcome changed _ ih => exact .gone v own turns outcome changed ih

theorem visited_sublist (h : Fates d ts vs us) :
    (vs.filterMap Visit.path?).Sublist (ts.map Prod.fst) := by
  induction h with
  | nil => exact List.Sublist.slnil
  | pathless v none _ ih => rwa [List.filterMap_cons_none none]
  | waits path _ _ ih => exact ih.cons path
  | stays v own _ _ _ ih | gone v own _ _ _ _ ih =>
    rw [List.filterMap_cons_some own]
    exact ih.cons_cons _

theorem left_sublist (h : Fates d ts vs us) : (us.map Prod.fst).Sublist (ts.map Prod.fst) := by
  induction h with
  | nil => exact List.Sublist.slnil
  | pathless _ _ _ ih => exact ih
  | waits _ _ _ ih | stays _ _ _ _ _ ih => exact ih.cons_cons _
  | gone _ _ _ _ _ _ ih => exact ih.cons _

theorem of_visit (h : Fates d ts vs us) (hv : v ∈ vs) (hp : v.path? = some path) :
    ∃ inner, (path, inner) ∈ ts ∧ Turns d inner (plain v.text) := by
  induction h with
  | nil => cases hv
  | pathless w none _ ih =>
    rcases List.mem_cons.1 hv with rfl | hv
    · rw [hp] at none
      cases none
    · exact ih hv
  | waits _ _ _ ih =>
    obtain ⟨inner, hmem, ht⟩ := ih hv
    exact ⟨inner, List.mem_cons_of_mem _ hmem, ht⟩
  | stays w own turns _ _ ih | gone w own turns _ _ _ ih =>
    rcases List.mem_cons.1 hv with rfl | hv
    · obtain rfl := Option.some.inj (own.symm.trans hp)
      exact ⟨_, List.mem_cons_self, turns⟩
    · obtain ⟨inner, hmem, ht⟩ := ih hv
      exact ⟨inner, List.mem_cons_of_mem _ hmem, ht⟩

theorem of_left (h : Fates d ts vs us) (hx : (path, x) ∈ us) :
    ∃ inner, (path, inner) ∈ ts ∧ Turns d inner x := by
  induction h with
  | nil => cases hx
  | pathless _ _ _ ih => exact ih hx
  | waits _ turns _ ih | stays _ _ turns _ _ ih =>
    rcases List.mem_cons.1 hx with heq | hx
    · cases heq
      exact ⟨_, List.mem_cons_self, turns⟩
    · obtain ⟨inner, hmem, ht⟩ := ih hx
      exact ⟨inner, List.mem_cons_of_mem _ hmem, ht⟩
  | gone _ _ _ _ _ _ ih =>
    obtain ⟨inner, hmem, ht⟩ := ih hx
    exact ⟨inner, List.mem_cons_of_mem _ hmem, ht⟩

/-- A tag that was visited and is still there has stayed as it was. -/
theorem of_visit_left (h : Fates d ts vs us) (hn : (ts.map Prod.fst).Nodup) (hv : v ∈ vs)
    (hp : v.path? = some path) (hx : (path, x) ∈ us) :
    v.outcome? = some (.pending v.text) ∧ x = plain v.text := by
  induction h with
  | nil => cases hv
  | pathless w none _ ih =>
    rcases List.mem_cons.1 hv with rfl | hv
    · rw [hp] at none
      cases none
    · exact ih hn hv hx
  | @waits ts us vs path' inner x' _ rest ih =>
    obtain ⟨hfresh, hn⟩ := List.nodup_cons.1 hn
    rcases List.mem_cons.1 hx with heq | hx
    · cases heq
      obtain ⟨inner, hmem, -⟩ := rest.of_visit hv hp
      exact absurd (List.mem_map_of_mem hmem) hfresh
    · exact ih hn hv hx
  | @stays ts us vs w path' inner own _ outcome rest ih =>
    obtain ⟨hfresh, hn⟩ := List.nodup_cons.1 hn
    rcases List.mem_cons.1 hv with rfl | hv
    · obtain rfl := Option.some.inj (own.symm.trans hp)
      rcases List.mem_cons.1 hx with heq | hx
      · cases heq
        exact ⟨outcome, rfl⟩
      · obtain ⟨inner, hmem, -⟩ := rest.of_left hx
        exact absurd (List.mem_map_of_mem hmem) hfresh
    · obtain ⟨inner, hmem, -⟩ := rest.of_visit hv hp
      rcases List.mem_cons.1 hx with heq | hx
      · cases heq
        exact absurd (List.mem_map_of_mem hmem) hfresh
      · exact ih hn hv hx
  | @gone ts us vs w path' inner a own _ _ _ rest ih =>
    obtain ⟨hfresh, hn⟩ := List.nodup_cons.1 hn
    rcases List.mem_cons.1 hv with rfl | hv
    · obtain rfl := Option.some.inj (own.symm.trans hp)
      obtain ⟨inner, hmem, -⟩ := rest.of_left hx
      exact absurd (List.mem_map_of_mem hmem) hfresh
    · exact ih hn hv hx

/-- No tag is lost: it is still there or was visited and did not stay. -/
theorem of_tag (h : Fates d ts vs us) (hp : path ∈ ts.map Prod.fst) :
    path ∈ us.map Prod.fst ∨
      ∃ v ∈ vs, v.path? = some path ∧ ∃ a, v.outcome? = some a ∧ a ≠ .pending v.text := by
  induction h with
  | nil => cases hp
  | pathless w _ _ ih =>
    rcases ih hp with hus | ⟨v, hv, hpath, ho⟩
    · exact .inl hus
    · exact .inr ⟨v, List.mem_cons_of_mem _ hv, hpath, ho⟩
  | waits path' _ _ ih =>
    rcases List.mem_cons.1 hp with rfl | hp
    · exact .inl List.mem_cons_self
    · exact (ih hp).imp_left (List.mem_cons_of_mem _)
  | stays w _ _ _ _ ih =>
    rcases List.mem_cons.1 hp with rfl | hp
    · exact .inl List.mem_cons_self
    · rcases ih hp with hus | ⟨v, hv, hpath, ho⟩
      · exact .inl (List.mem_cons_of_mem _ hus)
      · exact .inr ⟨v, List.mem_cons_of_mem _ hv, hpath, ho⟩
  | gone w own _ outcome changed _ ih =>
    rcases List.mem_cons.1 hp with rfl | hp
    · exact .inr ⟨w, List.mem_cons_self, own, _, outcome, changed⟩
    · rcases ih hp with hus | ⟨v, hv, hpath, ho⟩
      · exact .inl hus
      · exact .inr ⟨v, List.mem_cons_of_mem _ hv, hpath, ho⟩

end Fates

/-- The visits of the template's tags are in the order of the tags, and have the texts that the tags
came to hold. -/
structure Attended (d : Delimiters) (ts : List (Path × Patchwork)) (vs : List Visit) : Prop where
  sublist : (vs.filterMap Visit.path?).Sublist (ts.map Prod.fst)
  text : ∀ v ∈ vs, ∀ path, v.path? = some path →
    ∃ inner, (path, inner) ∈ ts ∧ Turns d inner (plain v.text)

theorem Fates.attended {ts us : List (Path × Patchwork)} {vs : List Visit} (h : Fates d ts vs us) :
    Attended d ts vs :=
  ⟨h.visited_sublist, fun _ hv _ hp => h.of_visit hv hp⟩

theorem Attended.nil (d : Delimiters) (ts : List (Path × Patchwork)) : Attended d ts [] :=
  ⟨List.nil_sublist _, by simp⟩

theorem Attended.append {ts ts' : List (Path × Patchwork)} {vs vs' : List Visit}
    (h : Attended d ts vs) (h' : Attended d ts' vs') : Attended d (ts ++ ts') (vs ++ vs') where
  sublist := by
    rw [List.filterMap_append, List.map_append]
    exact h.sublist.append h'.sublist
  text := by
    intro v hv path hp
    rcases List.mem_append.1 hv with hv | hv
    · obtain ⟨inner, hmem, ht⟩ := h.text v hv path hp
      exact ⟨inner, List.mem_append_left _ hmem, ht⟩
    · obtain ⟨inner, hmem, ht⟩ := h'.text v hv path hp
      exact ⟨inner, List.mem_append_right _ hmem, ht⟩

theorem Attended.one {v : Visit} {inner : Patchwork} (h : Turns d inner (plain v.text)) :
    Attended d (own (.tag v.path?) inner) [v] := by
  cases hp : v.path? with
  | none =>
    refine ⟨by simp [hp], fun w hw path hpath => ?_⟩
    rw [List.mem_singleton.1 hw, hp] at hpath
    cases hpath
  | some path' =>
    refine ⟨by simp [hp], fun w hw path hpath => ?_⟩
    rw [List.mem_singleton.1 hw, hp] at hpath
    cases hpath
    rw [List.mem_singleton.1 hw]
    exact ⟨inner, by simp, h⟩

theorem Settled.fates {kind : RegionKind} {inner inner' left : Patchwork} {vs us : List Visit}
    (h : Settled d kind inner' us left) (hi : Turns d inner inner')
    (hf : Fates d inner.tags vs inner'.tags) :
    Fates d (inner.tags ++ own kind inner) (vs ++ us) left.tags := by
  -- a visited tag has no tags left inside it
  have hvisit (v : Visit) (ht : inner' = plain v.text) (hleft : List (Path × Patchwork))
      (hown : Fates d (own (.tag v.path?) inner) [v] hleft) :
      Fates d (inner.tags ++ own (.tag v.path?) inner) (vs ++ [v]) hleft := by
    subst ht
    exact hf.append hown
  cases h with
  | gone t =>
    have hown : Fates d (own .group inner) [] [] := .nil
    exact hf.append hown
  | waits kind open_ =>
    rw [tags_one]
    refine hf.append ?_
    unfold own
    cases kind.path? with
    | none => exact .nil
    | some path => exact .waits path hi .nil
  | stays v outcome =>
    rw [tags_one]
    refine hvisit v rfl _ ?_
    cases hp : v.path? with
    | none => exact .pathless v hp .nil
    | some path => exact .stays v hp hi outcome .nil
  | final v t outcome =>
    refine hvisit v rfl _ ?_
    have hne : Answer.final t ≠ .pending v.text := by simp [Answer.final, Answer.pending]
    cases hp : v.path? with
    | none => exact .pathless v hp .nil
    | some path => exact .gone v hp hi outcome hne .nil
  | pending v t outcome changed =>
    refine hvisit v rfl _ ?_
    have hne : Answer.pending t ≠ .pending v.text := by simpa [Answer.pending] using changed
    rw [tags_ofAnswer]
    cases hp : v.path? with
    | none => exact .pathless v hp .nil
    | some path => exact .gone v hp hi outcome hne .nil

theorem Rewritten.fates {p q : Patchwork} {vs : List Visit} (h : Rewritten d p vs q) :
    Fates d p.tags vs q.tags := by
  induction h with
  | plain t => exact .nil
  | patch lead kind inside settled _ ihi ihr =>
    have hleft := settled.fates ⟨_, inside⟩ ihi
    have hall := hleft.append ihr
    simpa [tags] using hall

theorem Stopped.attended {p : Patchwork} {vs : List Visit} (h : Stopped d p vs) :
    Attended d p.tags vs := by
  induction h with
  | @inside lead kind inner rest vs _ ih =>
    have hall := ih.append (.nil d (own kind inner ++ rest.tags))
    simpa [tags] using hall
  | here lead rest v inside outcome =>
    have hinner := inside.fates.attended
    have hall := (hinner.append (.one ⟨_, inside⟩)).append (.nil d rest.tags)
    simpa [tags] using hall
  | after lead kind inside settled _ ih =>
    have hleft := (settled.fates ⟨_, inside⟩ inside.fates).attended
    have hall := hleft.append ih
    simpa [tags] using hall

/-- The tags inside a region are still there behind its end. -/
theorem Settled.tags_subset {kind : RegionKind} {inner left : Patchwork} {us : List Visit}
    (h : Settled d kind inner us left) : inner.tags ⊆ left.tags := by
  cases h with
  | waits kind open_ =>
    rw [tags_one]
    exact List.subset_append_left _ _
  | gone | stays | final | pending => exact List.nil_subset _

theorem Settled.visit {path : Path} {u : Text} {left : Patchwork} {us : List Visit}
    (h : Settled d (.tag (some path)) (plain u) us left) :
    ∃ v ∈ us, v.path? = some path ∧ v.text = u ∧
      (v.outcome? = some (.pending u) → (path, plain u) ∈ left.tags) := by
  generalize hkind : RegionKind.tag (some path) = kind at h
  generalize hinner : plain u = inner at h
  cases h with
  | gone => cases hkind
  | waits kind open_ =>
    rw [← hinner] at open_
    cases open_
  | stays v outcome =>
    cases hinner
    have hpath : v.path? = some path := (RegionKind.tag.inj hkind).symm
    refine ⟨v, by simp, hpath, rfl, fun _ => ?_⟩
    rw [tags_one, hpath]
    exact List.mem_append_right _ List.mem_cons_self
  | final v t outcome =>
    cases hinner
    refine ⟨v, by simp, (RegionKind.tag.inj hkind).symm, rfl, fun hsame => ?_⟩
    rw [outcome] at hsame
    cases hsame
  | pending v t outcome changed =>
    cases hinner
    refine ⟨v, by simp, (RegionKind.tag.inj hkind).symm, rfl, fun hsame => ?_⟩
    rw [outcome] at hsame
    cases hsame
    exact absurd rfl changed

/-- A tag with no regions in it is visited in the pass, and stays after an answer that leaves it as
it is. -/
theorem Rewritten.visit {p q : Patchwork} {vs : List Visit} {path : Path} {u : Text}
    (h : Rewritten d p vs q) (hu : (path, Patchwork.plain u) ∈ p.tags) :
    ∃ v ∈ vs, v.path? = some path ∧ v.text = u ∧
      (v.outcome? = some (.pending u) → (path, Patchwork.plain u) ∈ q.tags) := by
  induction h with
  | plain t => cases hu
  | @patch lead kind inner rest inner' left rest' vs us ws inside settled _ ihi ihr =>
    simp only [tags, List.mem_append] at hu
    simp only [tags_append, tags_plain, List.nil_append, List.mem_append]
    rcases hu with hu | hu | hu
    · obtain ⟨v, hv, hpath, htext, hstays⟩ := ihi hu
      exact ⟨v, .inl hv, hpath, htext, fun ho => .inl (settled.tags_subset (hstays ho))⟩
    · unfold own at hu
      obtain ⟨path', hkind, heq⟩ := Option.map_eq_some_iff.1 (Option.mem_toList.1 hu)
      cases heq
      cases inside with
      | plain =>
      cases kind with
      | group => cases hkind
      | tag path? =>
        cases (show path? = some path from hkind)
        obtain ⟨v, hv, hpath, htext, hstays⟩ := settled.visit
        exact ⟨v, .inr (.inl hv), hpath, htext, fun ho => .inl (hstays ho)⟩
    · obtain ⟨v, hv, hpath, htext, hstays⟩ := ihr hu
      exact ⟨v, .inr (.inr hv), hpath, htext, fun ho => .inr (hstays ho)⟩

theorem Settled.one_or_tags_eq_nil {kind : RegionKind} {inner left : Patchwork} {us : List Visit}
    (h : Settled d kind inner us left) : left = one kind inner ∨ left.tags = [] := by
  cases h with
  | gone t => exact .inr rfl
  | waits kind open_ => exact .inl rfl
  | stays v outcome => exact .inl rfl
  | final v t outcome => exact .inr rfl
  | pending v t outcome changed => exact .inr (tags_ofAnswer d t)

/-- A pass leaves the tags of the template inside each other as they are. -/
theorem Rewritten.rooted {p q : Patchwork} {vs : List Visit} {around : Path} {lo : Nat}
    (h : Rewritten d p vs q) (hp : Rooted around lo p) : Rooted around lo q := by
  induction h generalizing around lo with
  | plain t => exact .plain _ _ _
  | @patch lead kind inner rest inner' left rest' vs us ws inside settled _ ihi ihr =>
    have hgone {hi : Nat} (hleft : left.tags = []) (hrest : Rooted around hi rest')
        (hlo : lo ≤ hi) : Rooted around lo (Patchwork.plain lead ++ left ++ rest') :=
      (hrest.mono hlo).append_of_tags_eq_nil (by simp [hleft])
    cases hp with
    | tag _ i le hinner hrest =>
      rcases settled.one_or_tags_eq_nil with rfl | hleft
      · rw [plain_append_one_append]
        exact .tag lead i le (ihi hinner) (ihr hrest)
      · exact hgone hleft (ihr hrest) (by omega)
    | other _ pathless hinner hrest =>
      have hsub := (settled.fates ⟨_, inside⟩ inside.fates).left_sublist
      rw [hinner, own_of_path?_eq_none pathless] at hsub
      exact hgone (by simpa using hsub) (ihr hrest) (Nat.le_refl _)

end TagMarkup.Patchwork
