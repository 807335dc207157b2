import TagMarkup.Proofs.Patchwork.Work

/-! A text in parts, each of which is a patchwork. A pass over the whole text works through one part
after the other, and the boundaries stay where a part ends and the next one begins
(`pass_ofParts`). -/

namespace TagMarkup

variable {σ : Type}

namespace Patchwork

/-- The patchwork of all parts, one behind the other. -/
def joined (ps : List Patchwork) : Patchwork := ps.foldr (· ++ ·) (plain [])

@[simp] theorem joined_nil : joined [] = plain [] := rfl

@[simp] theorem joined_cons (p : Patchwork) (ps : List Patchwork) :
    joined (p :: ps) = p ++ joined ps := rfl

@[simp] theorem text_joined (ps : List Patchwork) :
    (joined ps).text = (ps.map text).flatten := by
  induction ps with
  | nil => rfl
  | cons p ps ih => simp [ih]

end Patchwork

namespace Pass

variable {r : Responder σ} {info : PassInfo} {fallback : Fallback}

theorem work_append (a b : Agenda) :
    work r info fallback (a ++ b) = (do
      let left ← work r info fallback a
      let more ← work r info fallback b
      return left ++ more) := by
  induction a with
  | nil => exact (bind_pure (work r info fallback b)).symm
  | cons region inner rest _ ih =>
    rw [Forest.cons_append]
    simp only [work, ih, bind_assoc, pure_bind, Forest.append_assoc]

end Pass

namespace Patchwork

variable {r : Responder σ} {info : PassInfo} {fallback : Fallback} {live : Live σ}
  {before after : Text}

theorem work_append (p q : Patchwork) :
    work r info fallback (p ++ q) = (do
      let left ← work r info fallback p
      let more ← work r info fallback q
      return left ++ more) := by
  induction p with
  | plain t =>
    cases q with
    | plain u => rfl
    | patch lead kind inner rest =>
      simp only [plain_append_patch, work, bind_assoc, pure_bind, ← plain_append_plain,
        append_assoc]
  | patch lead kind inner rest _ ih =>
    simp only [patch_append, work, ih, bind_assoc, pure_bind, append_assoc]

/-- The boundaries in front of a part stay, and those behind it go on from its new end. -/
theorem Moves.boundaries {live' : Live σ} {p q : Patchwork} {passed : List Nat} {fs : List Text}
    (h : Moves live before p q live') (hpassed : ∀ n ∈ passed, n ≤ before.bytes)
    (hb : live.boundaries = passed ++ Fragments.boundaries before.bytes (p.text :: fs)) :
    live'.boundaries =
      passed ++ [before.bytes] ++ Fragments.boundaries (before ++ q.text).bytes fs := by
  obtain ⟨f, hf, hcarries⟩ := h
  have hfront : passed.map f = passed := by
    rw [List.map_congr_left fun n hn => hcarries.front n (hpassed n hn)]
    exact List.map_id' passed
  rw [hf, hb, Fragments.boundaries, ← Text.bytes_append, List.map_append, List.map_cons,
    hcarries.front _ (Nat.le_refl _), hcarries.map_boundaries, hfront]
  simp

/-- A pass over a text in parts agrees with the passes over the parts, and the boundaries that were
where the parts end are there afterwards. -/
theorem parts_agrees (ps : List Patchwork) (before : Text) (passed : List Nat) {base : Nat}
    (ht : live.text = before ++ ((joined ps).text ++ after))
    (hbase : (base : Int) + live.growth = before.bytes) (hsolid : ∀ p ∈ ps, p.Solid)
    (hpassed : ∀ n ∈ passed, n ≤ before.bytes)
    (hb : live.boundaries = passed ++ Fragments.boundaries before.bytes (ps.map text)) :
    Agrees live (Pass.work r info fallback ((joined ps).agenda base))
      (ps.mapM (work r info fallback)) fun left live' qs =>
        Becomes live before after (joined ps) (joined qs) left live' ∧
          live'.boundaries = passed ++ Fragments.boundaries before.bytes (qs.map text) := by
  induction ps generalizing live before passed base with
  | nil => exact .pure ⟨⟨rfl, ht, rfl⟩, hb⟩
  | cons p ps ih =>
    have hp : p.Solid := hsolid p List.mem_cons_self
    have hps (q : Patchwork) (hq : q ∈ ps) : q.Solid := hsolid q (List.mem_cons_of_mem p hq)
    simp only [joined_cons, text_append, List.append_assoc] at ht
    rw [joined_cons, agenda_append, Pass.work_append, List.mapM_cons]
    refine (work_agrees before ht hbase).bind ?_
    rintro _ live₁ p' ⟨⟨rfl, ht₁, hg₁⟩, hm₁⟩
    have hb₁ := (hm₁ hp).boundaries hpassed hb
    have hpassed₁ (n : Nat) (hn : n ∈ passed ++ [before.bytes]) :
        n ≤ (before ++ p'.text).bytes := by
      rw [Text.bytes_append]
      rcases List.mem_append.1 hn with hn | hn
      · have := hpassed n hn
        omega
      · rw [List.mem_singleton.1 hn]
        omega
    refine (ih (before ++ p'.text) (passed ++ [before.bytes]) (by simpa using ht₁)
      (by simp; omega) hps hpassed₁ hb₁).bind ?_
    rintro _ live₂ qs ⟨⟨rfl, ht₂, hg₂⟩, hb₂⟩
    refine .pure ⟨⟨?_, ?_, ?_⟩, ?_⟩
    · simp
    · simpa using ht₂
    · simp at hg₂ ⊢
      omega
    · rw [hb₂]
      simp [Fragments.boundaries]

end Patchwork

open Patchwork

/-- The text of the parts with the boundaries between them. -/
def Scene.ofParts (ps : List Patchwork) (ready : Bool) : Scene :=
  ⟨(joined ps).text, Fragments.boundaries 0 (ps.map Patchwork.text), (joined ps).agenda 0, ready⟩

theorem Scene.cut_ofParts (ps : List Patchwork) (ready : Bool) :
    Fragments.cut (Scene.ofParts ps ready).text (Scene.ofParts ps ready).boundaries =
      ps.map Patchwork.text := by
  have hcut := Fragments.cut_boundaries [] (ps.map Patchwork.text)
  simpa [ofParts] using hcut

/-- A pass over a text in parts ends with the parts that the passes over them end with. -/
theorem Scene.pass_ofParts (r : Responder σ) (info : PassInfo) (ps : List Patchwork) (ready : Bool)
    (state : σ) (hsolid : ∀ p ∈ ps, p.Solid) :
    match (ps.mapM (Patchwork.work r info (r.fallback state))).run ⟨true, state⟩ with
    | (.ok qs, standing) => (Scene.ofParts ps ready).pass r info state =
        (.ok (.ofParts qs standing.ready), standing.state)
    | (.error cause, standing) => (Scene.ofParts ps ready).pass r info state =
        (.error (.noAnswer cause), standing.state) := by
  let scene := Scene.ofParts ps ready
  let live : Live σ := ⟨scene.text, scene.boundaries, 0, true, state⟩
  have htext : live.text = [] ++ ((joined ps).text ++ []) := by simp [live, scene, ofParts]
  have hw : Agrees live (Pass.work r info (r.fallback state) ((joined ps).agenda 0))
      (ps.mapM (work r info (r.fallback state))) _ :=
    parts_agrees ps [] [] htext rfl hsolid (by simp) rfl
  unfold Agrees at hw
  unfold Scene.pass
  dsimp only [live, scene] at hw
  generalize (ps.mapM (work r info (r.fallback state))).run ⟨true, state⟩ = result at hw ⊢
  obtain ⟨cause | qs, standing⟩ := result
  · obtain ⟨live', hrun, rfl⟩ := hw
    simp only [ofParts] at hrun ⊢
    simp only [hrun]
  · obtain ⟨left, live', hrun, rfl, ⟨hleft, ht, -⟩, hb⟩ := hw
    simp only [ofParts] at hrun ⊢
    simp only [hrun, hb, ht, hleft]
    simp

end TagMarkup
