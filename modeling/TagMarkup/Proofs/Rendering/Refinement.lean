import TagMarkup.Proofs.Patchwork.Rewriting

/-! A pass finds its regions by offsets in a text that changes under it. It does what the pass over
the patchwork of that text does, which has no offsets. -/

namespace TagMarkup

variable {σ : Type}

namespace Patchwork

/-- The text of a patchwork after some of its tags have given way to answers: every one of them was
among the visits and could be read, and all text outside them is kept in its place. -/
inductive Keeps (visits : List Visit) : Patchwork → Text → Prop
  | plain (t : Text) : Keeps visits (plain t) t
  | patch (lead : Text) (kind : RegionKind) {inner rest : Patchwork} {t u : Text}
    (inside : Keeps visits inner t) (after : Keeps visits rest u) :
    Keeps visits (patch lead kind inner rest) (lead ++ (t ++ u))
  | answered (lead : Text) {inner rest : Patchwork} {u : Text} (v : Visit) (tag : SingleTag)
    (a : Answer) (mem : v ∈ visits) (read : v.tag? = some tag) (outcome : v.outcome? = some a)
    (inside : Keeps visits inner v.text) (after : Keeps visits rest u) :
    Keeps visits (patch lead (.tag v.path?) inner rest) (lead ++ (a.text ++ u))

theorem Keeps.mono {vs us : List Visit} {p : Patchwork} {t : Text} (h : Keeps vs p t)
    (hs : vs ⊆ us) : Keeps us p t := by
  induction h with
  | plain t => exact .plain t
  | patch lead kind _ _ ihi ihr => exact .patch lead kind ihi ihr
  | answered lead v tag a mem read outcome _ _ ihi ihr =>
    exact .answered lead v tag a (hs mem) read outcome ihi ihr

theorem Keeps.settled {d : Delimiters} {lead : Text} {kind : RegionKind}
    {inner inner' left rest : Patchwork} {u : Text} {visits us : List Visit}
    (hi : Keeps visits inner inner'.text) (hs : Settled d kind inner' us left)
    (hr : Keeps visits rest u) (hus : us ⊆ visits)
    (hu : ∀ v ∈ us, v.tag? = none → ∀ a, v.outcome? = some a → a.text = v.text) :
    Keeps visits (.patch lead kind inner rest) (lead ++ (left.text ++ u)) := by
  have hvisit (v : Visit) (a : Answer) (ho : v.outcome? = some a) (hi : Keeps visits inner v.text)
      (hmem : v ∈ visits) (hun : v.tag? = none → a.text = v.text) :
      Keeps visits (.patch lead (.tag v.path?) inner rest) (lead ++ (a.text ++ u)) := by
    cases ht : v.tag? with
    | some tag => exact .answered lead v tag a hmem ht ho hi hr
    | none => rw [hun ht]; exact .patch lead _ hi hr
  cases hs with
  | gone t => exact .patch lead _ hi hr
  | waits kind _ => rw [text_one]; exact .patch lead _ hi hr
  | stays v ho => rw [text_one]; exact .patch lead _ hi hr
  | final v t ho => exact hvisit v _ ho hi (hus (by simp)) fun h => hu v (by simp) h _ ho
  | pending v t ho _ =>
    rw [text_ofAnswer]
    exact hvisit v _ ho hi (hus (by simp)) fun h => hu v (by simp) h _ ho

theorem Rewritten.keeps {d : Delimiters} {p q : Patchwork} {vs : List Visit}
    (h : Rewritten d p vs q)
    (hu : ∀ v ∈ vs, v.tag? = none → ∀ a, v.outcome? = some a → a.text = v.text) :
    Keeps vs p q.text := by
  induction h with
  | plain t => exact .plain t
  | @patch lead kind inner rest inner' left rest' vs us ws _ hs _ ihi ihr =>
    simp only [text_append, text_plain, List.append_assoc]
    have hmem (v : Visit) : v ∈ vs ++ (us ++ ws) ↔ v ∈ vs ∨ v ∈ us ∨ v ∈ ws := by simp
    have hi := ihi fun v hv => hu v ((hmem v).2 (.inl hv))
    have hr := ihr fun v hv => hu v ((hmem v).2 (.inr (.inr hv)))
    exact (hi.mono fun v hv => (hmem v).2 (.inl hv)).settled hs
      (hr.mono fun v hv => (hmem v).2 (.inr (.inr hv)))
      (fun v hv => (hmem v).2 (.inr (.inl hv))) fun v hv => hu v ((hmem v).2 (.inr (.inl hv)))

end Patchwork

/-- A pass over a text whose agenda is that of a patchwork does what the pass over the patchwork
does. -/
theorem Scene.pass_agrees (r : Responder σ) (info : PassInfo) (scene : Scene) (p : Patchwork)
    (state : σ) (htext : p.text = scene.text) (hagenda : p.agenda 0 = scene.agenda) :
    match p.pass r info state with
    | (.ok (q, ready), state') =>
      ∃ boundaries, scene.pass r info state = (.ok ⟨q.text, boundaries, q.agenda 0, ready⟩, state')
    | (.error cause, state') => scene.pass r info state = (.error (.noAnswer cause), state') := by
  let live : Live σ := ⟨scene.text, scene.boundaries, 0, true, state⟩
  have hlive : live.text = [] ++ (p.text ++ []) := by simp [live, htext]
  have hw : Patchwork.Agrees live (Pass.work r info (r.fallback state) (p.agenda 0))
    (p.work r info (r.fallback state)) _ := Patchwork.work_agrees [] hlive rfl
  unfold Patchwork.Agrees at hw
  unfold Patchwork.pass Scene.pass
  rw [← hagenda]
  dsimp only [live] at hw ⊢
  generalize (p.work r info (r.fallback state)).run ⟨true, state⟩ = result at hw ⊢
  obtain ⟨e | q, standing⟩ := result
  · obtain ⟨live', hrun, rfl⟩ := hw
    simp only [hrun]
  · obtain ⟨left, live', hrun, rfl, ⟨hleft, ht, -⟩, -⟩ := hw
    simp only [hrun]
    exact ⟨live'.boundaries, by simp [ht, hleft]⟩

end TagMarkup
