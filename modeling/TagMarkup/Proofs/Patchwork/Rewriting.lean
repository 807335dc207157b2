import TagMarkup.Proofs.Patchwork.Work

/-! What a pass over a patchwork does, as a relation between the patchwork before it, its visits and
the patchwork after it. Only a tag that was visited gives way to another text, and only to its
answer; all other text stays in its place. -/

namespace TagMarkup.Patchwork

variable {σ : Type} {d : Delimiters}

/-- A region in which `inner` is left takes its end: a group without regions is gone, any other
region with regions inside it waits, and a tag without regions inside it is visited. -/
inductive Settled (d : Delimiters) : RegionKind → Patchwork → List Visit → Patchwork → Prop
  | gone (t : Text) : Settled d .group (plain t) [] (plain t)
  | waits (kind : RegionKind) {inner : Patchwork} (open_ : inner.isPlain = false) :
    Settled d kind inner [] (one kind inner)
  | stays (v : Visit) (outcome : v.outcome? = some (.pending v.text)) :
    Settled d (.tag v.path?) (plain v.text) [v] (one (.tag v.path?) (plain v.text))
  | final (v : Visit) (t : Text) (outcome : v.outcome? = some (.final t)) :
    Settled d (.tag v.path?) (plain v.text) [v] (plain t)
  | pending (v : Visit) (t : Text) (outcome : v.outcome? = some (.pending t))
    (changed : t ≠ v.text) :
    Settled d (.tag v.path?) (plain v.text) [v] (ofAnswer d t)

/-- A pass over a patchwork with its visits in order: those inside a region come before the one of
the region itself, and then come those after the region. -/
inductive Rewritten (d : Delimiters) : Patchwork → List Visit → Patchwork → Prop
  | plain (t : Text) : Rewritten d (plain t) [] (plain t)
  | patch (lead : Text) (kind : RegionKind) {inner rest inner' left rest' : Patchwork}
    {vs us ws : List Visit} (inside : Rewritten d inner vs inner')
    (settled : Settled d kind inner' us left) (after : Rewritten d rest ws rest') :
    Rewritten d (patch lead kind inner rest) (vs ++ (us ++ ws))
      (Patchwork.plain lead ++ left ++ rest')

/-- If all answers were ready, nothing is left to do. -/
theorem Rewritten.isPlain {p q : Patchwork} {vs : List Visit} (h : Rewritten d p vs q)
    (hv : ∀ v ∈ vs, ∃ t, v.outcome? = some (.final t)) : q.isPlain = true := by
  induction h with
  | plain t => rfl
  | patch lead kind _ settled _ ihi ihr =>
    have hinner := ihi fun v hmem => hv v (by simp [hmem])
    have hrest := ihr fun v hmem => hv v (by simp [hmem])
    have hpending {v : Visit} {t : Text} (hmem : ∃ u, v.outcome? = some (.final u))
        (ho : v.outcome? = some (.pending t)) : False := by
      obtain ⟨u, hu⟩ := hmem
      rw [hu] at ho
      cases ho
    rw [isPlain_append, isPlain_append, hrest, Bool.and_true]
    cases settled with
    | gone t => rfl
    | waits kind open_ =>
      rw [hinner] at open_
      cases open_
    | stays v outcome => exact (hpending (hv v (by simp)) outcome).elim
    | final v t outcome => rfl
    | pending v t outcome changed => exact (hpending (hv v (by simp)) outcome).elim

/-- A pass that ended at a visit without an outcome, with the visits up to that one. -/
inductive Stopped (d : Delimiters) : Patchwork → List Visit → Prop
  | inside (lead : Text) (kind : RegionKind) {inner : Patchwork} (rest : Patchwork)
    {vs : List Visit} (stopped : Stopped d inner vs) : Stopped d (patch lead kind inner rest) vs
  | here (lead : Text) {inner : Patchwork} (rest : Patchwork) {vs : List Visit} (v : Visit)
    (inside : Rewritten d inner vs (plain v.text)) (outcome : v.outcome? = none) :
    Stopped d (patch lead (.tag v.path?) inner rest) (vs ++ [v])
  | after (lead : Text) (kind : RegionKind) {inner rest inner' left : Patchwork}
    {vs us ws : List Visit} (inside : Rewritten d inner vs inner')
    (settled : Settled d kind inner' us left) (stopped : Stopped d rest ws) :
    Stopped d (patch lead kind inner rest) (vs ++ (us ++ ws))

/-- Between two moments of a pass there were the visits `vs`, all of that pass and answered by the
responder `r`. -/
structure Visited (r : Responder σ) (info : PassInfo) (fallback : Fallback)
    (before after : Standing (Record σ)) (vs : List Visit) : Prop where
  visits : after.state.visits = before.state.visits ++ vs
  kept : after.state.fallback = before.state.fallback
  same : ∀ v ∈ vs, v.info = info ∧ v.fallback = fallback
  answers : ∀ v ∈ vs, ∃ s, v.answer = (r.ask v.info v.path? v.text s).1

/-- Every answer was ready at the later moment just when it was so before and all the visits `vs`
had ready answers. -/
def Readied (before after : Standing (Record σ)) (vs : List Visit) : Prop :=
  after.ready = true ↔ before.ready = true ∧ ∀ v ∈ vs, ∃ t, v.outcome? = some (.final t)

section

variable {r : Responder σ} {info : PassInfo} {fallback : Fallback}
  {s s' s'' : Standing (Record σ)} {vs us : List Visit}

theorem Visited.refl : Visited r info fallback s s [] := ⟨by simp, rfl, by simp, by simp⟩

theorem Visited.trans (h : Visited r info fallback s s' vs)
    (h' : Visited r info fallback s' s'' us) : Visited r info fallback s s'' (vs ++ us) where
  visits := by rw [h'.visits, h.visits, List.append_assoc]
  kept := h'.kept.trans h.kept
  same := by
    intro v hv
    rcases List.mem_append.1 hv with hv | hv
    · exact h.same v hv
    · exact h'.same v hv
  answers := by
    intro v hv
    rcases List.mem_append.1 hv with hv | hv
    · exact h.answers v hv
    · exact h'.answers v hv

theorem Visited.unready (h : Visited r info fallback s s' vs) :
    Visited r info fallback s { s' with ready := false } vs :=
  ⟨h.visits, h.kept, h.same, h.answers⟩

theorem Readied.trans (h : Readied s s' vs) (h' : Readied s' s'' us) :
    Readied s s'' (vs ++ us) := by
  constructor
  · intro hr
    obtain ⟨hr', hus⟩ := h'.1 hr
    obtain ⟨hr, hvs⟩ := h.1 hr'
    refine ⟨hr, fun v hv => ?_⟩
    rcases List.mem_append.1 hv with hv | hv
    · exact hvs v hv
    · exact hus v hv
  · rintro ⟨hr, hall⟩
    have hr' := h.2 ⟨hr, fun v hv => hall v (List.mem_append_left _ hv)⟩
    exact h'.2 ⟨hr', fun v hv => hall v (List.mem_append_right _ hv)⟩

theorem answer_leads (path? : Option Path) (t : Text) (hf : s.state.fallback = fallback) :
    Leads s (answer r.recorded info fallback path? t)
      (fun answer s' => s'.ready = s.ready ∧ ∃ v : Visit, v.path? = path? ∧ v.text = t ∧
        v.outcome? = some answer ∧ Visited r info fallback s s' [v])
      (fun s' => ∃ v : Visit, v.path? = path? ∧ v.text = t ∧ v.outcome? = none ∧
        Visited r info fallback s s' [v]) := by
  let asked := r.ask info path? t s.state.state
  let v : Visit := ⟨info, s.state.fallback, path?, t, asked.1⟩
  have hv : Visited r info fallback s
      ⟨s.ready, s.state.fallback, s.state.visits ++ [v], asked.2⟩ [v] :=
    ⟨rfl, rfl, by simp [v, hf], by simpa [v] using ⟨s.state.state, rfl⟩⟩
  have hask : Leads s (ask r.recorded info path? t) (fun answer s' => answer = asked.1 ∧
      s' = ⟨s.ready, s.state.fallback, s.state.visits ++ [v], asked.2⟩) (fun _ => False) :=
    ⟨rfl, rfl⟩
  refine hask.bind ?_ nofun
  rintro answer s' ⟨ha, rfl⟩
  cases hasked : asked.1 with
  | ok a =>
    rw [ha, hasked]
    exact ⟨rfl, v, rfl, rfl, by simp [Visit.outcome?, v, hasked], hv⟩
  | error cause =>
    rw [ha, hasked]
    cases fallback with
    | retry | passthrough => exact ⟨rfl, v, rfl, rfl, by simp [Visit.outcome?, v, hasked, hf], hv⟩
    | abort => exact ⟨v, rfl, rfl, by simp [Visit.outcome?, v, hasked, hf], hv⟩

theorem settleTag_leads (path? : Option Path) (t : Text) (hf : s.state.fallback = fallback) :
    Leads s (settleTag r.recorded info fallback path? t)
      (fun left s' => ∃ us, Visited r info fallback s s' us ∧ Readied s s' us ∧
        Settled info.delimiters (.tag path?) (plain t) us left)
      (fun s' => ∃ v : Visit, v.path? = path? ∧ v.text = t ∧ v.outcome? = none ∧
        Visited r info fallback s s' [v]) := by
  refine (answer_leads path? t hf).bind ?_ fun _ h => h
  rintro ⟨text, ready⟩ s' ⟨hready, v, rfl, rfl, ho, hv⟩
  cases ready with
  | true =>
    have hfinal : ∀ w ∈ [v], ∃ t, w.outcome? = some (.final t) := by simpa using ⟨text, ho⟩
    refine .pure ⟨[v], hv, ?_, .final v text ho⟩
    rw [Readied, hready]
    exact ⟨fun h => ⟨h, hfinal⟩, fun h => h.1⟩
  | false =>
    refine unready_leads.bind ?_ nofun
    rintro _ _ rfl
    have hreadied : Readied s { s' with ready := false } [v] := by
      refine ⟨nofun, fun h => ?_⟩
      obtain ⟨t, hfinal⟩ := h.2 v List.mem_cons_self
      rw [ho] at hfinal
      cases hfinal
    show Leads _ (if text = v.text then _ else _) _ _
    split
    next heq => exact ⟨[v], hv.unready, hreadied, .stays v (by rw [ho, heq]; rfl)⟩
    next hne => exact ⟨[v], hv.unready, hreadied, .pending v text ho hne⟩

theorem settle_leads (kind : RegionKind) (inner : Patchwork) (hf : s.state.fallback = fallback) :
    Leads s (settle r.recorded info fallback kind inner)
      (fun left s' => ∃ us, Visited r info fallback s s' us ∧
        (Readied s s' us ∨ inner.isPlain = false ∧ s'.ready = false) ∧
        Settled info.delimiters kind inner us left)
      (fun s' => ∃ v : Visit, kind = .tag v.path? ∧ inner = plain v.text ∧ v.outcome? = none ∧
        Visited r info fallback s s' [v]) := by
  have hsame : Readied s s [] := ⟨fun h => ⟨h, by simp⟩, fun h => h.1⟩
  cases kind with
  | group =>
    cases inner with
    | plain t => exact ⟨[], .refl, .inl hsame, .gone t⟩
    | patch lead kind inner rest => exact ⟨[], .refl, .inl hsame, .waits .group rfl⟩
  | tag path? =>
    cases inner with
    | plain t =>
      refine (settleTag_leads path? t hf).mono ?_ ?_
      · rintro left s' ⟨us, hus, hreadied, hleft⟩
        exact ⟨us, hus, .inl hreadied, hleft⟩
      rintro s' ⟨v, rfl, rfl, ho, hv⟩
      exact ⟨v, rfl, rfl, ho, hv⟩
    | patch lead kind inner rest =>
      refine unready_leads.bind ?_ nofun
      rintro _ _ rfl
      exact ⟨[], Visited.refl.unready, .inr ⟨rfl, rfl⟩, .waits (.tag path?) rfl⟩

/-- A pass over a patchwork rewrites it, or stops on the way. -/
theorem work_leads (p : Patchwork) (hf : s.state.fallback = fallback) :
    Leads s (work r.recorded info fallback p)
      (fun q s' => ∃ vs, Visited r info fallback s s' vs ∧ Readied s s' vs ∧
        Rewritten info.delimiters p vs q)
      (fun s' => ∃ vs, Visited r info fallback s s' vs ∧ Stopped info.delimiters p vs) := by
  induction p generalizing s with
  | plain t => exact ⟨[], .refl, ⟨fun h => ⟨h, by simp⟩, fun h => h.1⟩, .plain t⟩
  | patch lead kind inner rest ihi ihr =>
    refine (ihi hf).bind ?_ ?_
    · rintro inner' s₁ ⟨vs, hvs, hrvs, hinner⟩
      refine (settle_leads kind inner' (hvs.kept.trans hf)).bind ?_ ?_
      · rintro left s₂ ⟨us, hus, hrus, hleft⟩
        refine (ihr (hus.kept.trans (hvs.kept.trans hf))).bind ?_ ?_
        · rintro rest' s₃ ⟨ws, hws, hrws, hrest⟩
          refine ⟨vs ++ (us ++ ws), hvs.trans (hus.trans hws), ?_,
            .patch lead kind hinner hleft hrest⟩
          rcases hrus with hrus | ⟨hopen, hunready⟩
          · exact hrvs.trans (hrus.trans hrws)
          · -- a tag that waits has an answer inside it that was not ready
            constructor
            · intro hr
              rw [(hrws.1 hr).1] at hunready
              cases hunready
            · rintro ⟨-, hall⟩
              rw [hinner.isPlain fun v hv => hall v (List.mem_append_left _ hv)] at hopen
              cases hopen
        · rintro s₃ ⟨ws, hws, hrest⟩
          exact ⟨vs ++ (us ++ ws), hvs.trans (hus.trans hws), .after lead kind hinner hleft hrest⟩
      · rintro s₂ ⟨v, rfl, rfl, ho, hv⟩
        exact ⟨vs ++ [v], hvs.trans hv, .here lead rest v hinner ho⟩
    · rintro s₁ ⟨vs, hvs, hinner⟩
      exact ⟨vs, hvs, .inside lead kind rest hinner⟩

theorem pass_visited (r : Responder σ) (info : PassInfo) (p : Patchwork) (record : Record σ)
    (hf : record.fallback = r.fallback record.state) :
    match p.pass r.recorded info record with
    | (.ok (q, ready), after) => ∃ vs,
      Visited r info record.fallback ⟨true, record⟩ ⟨ready, after⟩ vs ∧
        (ready = true ↔ ∀ v ∈ vs, ∃ t, v.outcome? = some (.final t)) ∧
        Rewritten info.delimiters p vs q
    | (.error _, after) => ∃ vs ready,
      Visited r info record.fallback ⟨true, record⟩ ⟨ready, after⟩ vs ∧
        Stopped info.delimiters p vs := by
  have hw : Leads ⟨true, record⟩ (p.work r.recorded info (r.recorded.fallback record)) _ _ :=
    work_leads p hf
  have hfallback : r.recorded.fallback record = record.fallback := hf.symm
  unfold Leads at hw
  unfold pass
  rw [hfallback] at hw ⊢
  generalize (p.work r.recorded info record.fallback).run ⟨true, record⟩ = result at hw ⊢
  obtain ⟨e | q, standing⟩ := result
  · obtain ⟨vs, hvs, hp⟩ := hw
    exact ⟨vs, standing.ready, hvs, hp⟩
  · obtain ⟨vs, hvs, hready, hp⟩ := hw
    exact ⟨vs, hvs, ⟨fun h => (hready.1 h).2, fun h => hready.2 ⟨rfl, h⟩⟩, hp⟩

end

end TagMarkup.Patchwork
