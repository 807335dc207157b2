import Mathlib.Data.List.Forall2
import TagMarkup.Proofs.Markup.Parts
import TagMarkup.Proofs.Patchwork.Steady
import TagMarkup.Proofs.Rendering.Moment

/-! Fragments that are rendered together and alone. When no tag crosses from one fragment into
another and the answers depend on the tags alone, the fragments do not get in each other's way:
together they end with the same texts as alone, and the slowest of them decides on how many passes
it takes (`fragments_independent`). -/

namespace TagMarkup

open Patchwork

variable {σ : Type}

/-- What a renderer answers depends on the tag alone, and no answer stops a run. -/
structure Renderer.AnswersByTag (r : Renderer σ) : Prop where
  answer : ∃ respond : SingleTag → Except NoAnswer Answer, ∀ info path? tag s,
    (r.answer info path? tag s).1 = respond tag
  fallback : ∃ fallback, fallback ≠ .abort ∧ ∀ s, r.fallback s = fallback

theorem Renderer.AnswersByTag.steady {r : Renderer σ} (h : r.AnswersByTag) (d : Delimiters) :
    ∃ fallback reply, r.responder.Steady d fallback reply := by
  obtain ⟨⟨respond, hrespond⟩, fallback, habort, hfallback⟩ := h
  let asked (t : Text) : Except NoAnswer Answer :=
    match SingleTag.ofText d t with
    | .ok tag => respond tag
    | .error e => .error (.markup e)
  let otherwise (t : Text) : Answer := if fallback = .passthrough then .final t else .pending t
  refine ⟨fallback, fun t => (asked t).toOption.getD (otherwise t), hfallback, ?_⟩
  intro info path? t s hd
  have hask : Leads s (ask r.responder info path? t)
      (fun a s' => a = asked t ∧ s'.ready = s.ready) fun _ => False := by
    refine ⟨?_, rfl⟩
    show (r.responder.ask info path? t s.state).1 = asked t
    unfold Renderer.responder
    simp only [asked, hd]
    cases SingleTag.ofText d t with
    | ok tag => exact hrespond info path? tag s.state
    | error e => rfl
  refine hask.bind ?_ fun _ h => h
  rintro _ s' ⟨rfl, hs⟩
  cases asked t with
  | ok a => exact .pure ⟨rfl, hs⟩
  | error cause =>
    cases fallback with
    | abort => exact absurd rfl habort
    | retry | passthrough => exact .pure ⟨rfl, hs⟩

namespace Patchwork

theorem solid_joined {ps : List Patchwork} : (joined ps).Solid ↔ ∀ p ∈ ps, p.Solid := by
  induction ps with
  | nil => simp
  | cons p ps ih => simp [ih]

/-- The tags behind a patchwork go on counting where it ends. -/
theorem label_append (around : Path) (index : Nat) (p q : Patchwork) :
    ∃ index', (p ++ q).label around index = p.label around index ++ q.label around index' := by
  induction p generalizing index with
  | plain t =>
    refine ⟨index, ?_⟩
    cases q <;> rfl
  | patch lead kind inner rest _ ih =>
    obtain ⟨index', hrest⟩ := ih (index + 1)
    exact ⟨index', by simp only [patch_append, label, hrest]⟩

/-- The tags of a template in parts, with their paths: but for these the parts are as before. -/
theorem exists_label_joined {d : Delimiters} (ps : List Patchwork) (around : Path) (index : Nat)
    (hps : ∀ p ∈ ps, ∃ tags, Depicts d 0 p tags) :
    ∃ qs, (joined ps).label around index = joined qs ∧ qs.map bare = ps := by
  induction ps generalizing index with
  | nil => exact ⟨[], rfl, rfl⟩
  | cons p ps ih =>
    obtain ⟨index', happend⟩ := label_append around index p (joined ps)
    obtain ⟨qs, hjoined, hbare⟩ := ih index' fun q hq => hps q (List.mem_cons_of_mem p hq)
    obtain ⟨tags, hdepicts⟩ := hps p List.mem_cons_self
    refine ⟨p.label around index :: qs, by rw [joined_cons, happend, hjoined, joined_cons], ?_⟩
    rw [List.map_cons, bare_label hdepicts, hbare]

end Patchwork

section Parts

variable {d : Delimiters} {n : Nat} {p : Patchwork} {tags : Forest Tag} {m : Markup}

theorem Depicts.shift (h : Depicts d n p tags) (start : Nat) :
    Depicts d (start + n) p (tags.map (.shift start)) := by
  induction h with
  | plain => exact .plain _ _
  | @patch base before inner rest tag inside after hstart hstop head _ _ ihi ihr =>
    refine .patch ?_ ?_ head ihi ihr
    · simp [Tag.shift, hstart, Nat.add_assoc]
    · simp [Tag.shift, hstop, Nat.add_assoc]

theorem Markup.Valid.exists_patchwork (h : m.Valid d .free []) :
    ∃ p, p.text = m.source d ∧ ∀ position, Depicts d position p (m.tags d position) := by
  obtain ⟨p, -, htext, hdepicts⟩ := read_of_outline h.outline
  refine ⟨p, htext, fun position => ?_⟩
  have hshift := hdepicts.shift position
  rwa [← Markup.tags_shift, Nat.add_zero] at hshift

theorem Markup.exists_patchworks (ms : List Markup) (h : ∀ m ∈ ms, m.Valid d .free []) :
    ∃ ps, ps.map Patchwork.text = ms.map (source d) ∧
      (∀ position, Depicts d position (joined ps) (tagsOfParts d position ms)) ∧
      ∀ p ∈ ps, ∃ o, Outline.ofText d p.text = .ok o ∧ Depicts d 0 p o.tags := by
  induction ms with
  | nil => exact ⟨[], rfl, fun _ => .plain _ _, by simp⟩
  | cons m ms ih =>
    have hm := h m List.mem_cons_self
    obtain ⟨p, htext, hdepicts⟩ := hm.exists_patchwork
    obtain ⟨ps, htexts, hjoined, halone⟩ := ih fun m' hm' => h m' (List.mem_cons_of_mem m hm')
    refine ⟨p :: ps, by simp [htext, htexts], fun position => ?_, fun q hq => ?_⟩
    · refine (hdepicts position).append ?_
      rw [htext]
      exact hjoined _
    · rcases List.mem_cons.1 hq with rfl | hq
      · exact ⟨_, htext ▸ hm.outline, hdepicts 0⟩
      · exact halone q hq

end Parts

section Runs

variable {d : Delimiters} {reply : Text → Answer} {limit passes : Nat} {ps : List Patchwork}

/-- Of the runs over the patchwork one takes so many passes, and none takes more. -/
def Slowest (d : Delimiters) (reply : Text → Answer) (limit : Nat) (ps : List Patchwork)
    (passes : Nat) : Prop :=
  (∃ p ∈ ps, (ending d reply limit p).passes = passes) ∧
    ∀ p ∈ ps, (ending d reply limit p).passes ≤ passes

theorem slowest_zero (hne : ps ≠ []) : Slowest d reply 0 ps 0 := by
  obtain ⟨p, hp⟩ := List.exists_mem_of_ne_nil ps hne
  exact ⟨⟨p, hp, rfl⟩, fun _ _ => Nat.le_refl _⟩

theorem slowest_final (hne : ps ≠ []) (h : ∀ p ∈ ps, p.isFinal d reply = true) :
    Slowest d reply (limit + 1) ps 1 := by
  obtain ⟨p, hp⟩ := List.exists_mem_of_ne_nil ps hne
  refine ⟨⟨p, hp, by rw [ending_final (h p hp)]⟩, fun q hq => ?_⟩
  exact Nat.le_of_eq (by rw [ending_final (h q hq)])

/-- As long as one of the runs goes on, those that have ended do not count. -/
theorem Slowest.next (h : Slowest d reply limit (ps.map (rewrite d reply)) passes)
    (hopen : ∃ p ∈ ps, p.isFinal d reply = false) :
    Slowest d reply (limit + 1) ps (passes + 1) := by
  obtain ⟨⟨q, hq, hpasses⟩, hle⟩ := h
  have hmore (p : Patchwork) (hp : p ∈ ps) :
      (ending d reply limit (p.rewrite d reply)).passes ≤ passes :=
    hle _ (List.mem_map_of_mem hp)
  constructor
  · obtain ⟨p, hp, rfl⟩ := List.mem_map.1 hq
    cases hfinal : p.isFinal d reply with
    | false => exact ⟨p, hp, by rw [ending_next hfinal, hpasses]⟩
    | true =>
      -- the run that has ended takes no longer than one that goes on
      obtain ⟨p', hp', hfinal'⟩ := hopen
      refine ⟨p', hp', ?_⟩
      have hplain : (ending d reply limit (.plain (p.rewrite d reply).text)).passes ≤
          (ending d reply limit (p'.rewrite d reply)).passes := ending_plain_le limit _ _
      rw [← eq_plain_of_isPlain (isPlain_rewrite hfinal), hpasses] at hplain
      rw [ending_next hfinal', Nat.le_antisymm (hmore p' hp') hplain]
  · intro p hp
    cases hfinal : p.isFinal d reply with
    | false =>
      rw [ending_next hfinal]
      exact Nat.succ_le_succ (hmore p hp)
    | true =>
      rw [ending_final hfinal]
      exact Nat.succ_le_succ (Nat.zero_le _)

/-- If one of the runs goes on, all are ready in the end if they are when all of them go on. -/
theorem all_ready_next (hopen : ∃ p ∈ ps, p.isFinal d reply = false) :
    (ps.map (rewrite d reply)).all (fun p => (ending d reply limit p).ready) =
      ps.all fun p => (ending d reply (limit + 1) p).ready := by
  rw [List.all_map, Bool.eq_iff_iff, List.all_eq_true, List.all_eq_true]
  have hready {p : Patchwork} (hfinal : p.isFinal d reply = false) :
      (ending d reply (limit + 1) p).ready = (ending d reply limit (p.rewrite d reply)).ready := by
    rw [ending_next hfinal]
  constructor
  · intro h p hp
    cases hfinal : p.isFinal d reply with
    | false => exact (hready hfinal).trans (h p hp)
    | true => rw [ending_final hfinal]
  · intro h p hp
    show (ending d reply limit (p.rewrite d reply)).ready = true
    cases hfinal : p.isFinal d reply with
    | false => exact (hready hfinal).symm.trans (h p hp)
    | true =>
      obtain ⟨p', hp', hfinal'⟩ := hopen
      have hmore := (hready hfinal').symm.trans (h p' hp')
      rw [eq_plain_of_isPlain (isPlain_rewrite hfinal)]
      cases limit with
      | zero => cases hmore
      | succ limit => rw [ending_final rfl]

end Runs

/-- A pass over a text in parts rewrites each of them, and all is ready if they are. -/
theorem Scene.pass_steady {r : Responder σ} {info : PassInfo} {d : Delimiters}
    {fallback : Fallback} {reply : Text → Answer} (h : r.Steady d fallback reply)
    (hd : info.delimiters = d) (ps : List Patchwork) (ready : Bool) (state : σ)
    (hsolid : ∀ p ∈ ps, p.Solid) :
    ∃ state', (Scene.ofParts ps ready).pass r info state =
      (.ok (.ofParts (ps.map (rewrite d reply)) (ps.all (isFinal d reply))), state') := by
  have hpass := Scene.pass_ofParts r info ps ready state hsolid
  have hsteady : Leads ⟨true, state⟩ (ps.mapM (work r info fallback)) _ _ := parts_steady h hd ps
  rw [h.policy] at hpass
  unfold Leads at hsteady
  generalize (ps.mapM (work r info fallback)).run ⟨true, state⟩ = result at hpass hsteady
  obtain ⟨cause | qs, standing⟩ := result
  · exact hsteady.elim
  · obtain ⟨rfl, hready⟩ := hsteady
    rw [Bool.true_and] at hready
    exact ⟨standing.state, by rw [← hready]; exact hpass⟩

namespace Template

variable {t : Template} {r : Responder σ} {d : Delimiters} {fallback : Fallback}
  {reply : Text → Answer}

/-- What the runs over all parts come to. -/
def outcome (d : Delimiters) (reply : Text → Answer) (limit : Nat) (ps : List Patchwork)
    (passes : Nat) : Outcome where
  fragments := ps.map fun p => (ending d reply limit p).text
  ready := ps.all fun p => (ending d reply limit p).ready
  passes

theorem outcome_zero (ps : List Patchwork) (hne : ps ≠ []) :
    outcome d reply 0 ps 0 = ⟨ps.map Patchwork.text, false, 0⟩ := by
  obtain ⟨p, hp⟩ := List.exists_mem_of_ne_nil ps hne
  have hready : ps.all (fun p => (ending d reply 0 p).ready) = false :=
    List.all_eq_false.2 ⟨p, hp, by simp [ending]⟩
  simp only [outcome, hready]
  rfl

theorem outcome_final {limit : Nat} {ps : List Patchwork}
    (h : ∀ p ∈ ps, p.isFinal d reply = true) :
    outcome d reply (limit + 1) ps 1 =
      ⟨(ps.map (rewrite d reply)).map Patchwork.text, true, 1⟩ := by
  have hending (p : Patchwork) (hp : p ∈ ps) : ending d reply (limit + 1) p =
      ⟨(p.rewrite d reply).text, true, 1⟩ := ending_final (h p hp)
  have htexts : ps.map (fun p => (ending d reply (limit + 1) p).text) =
      (ps.map (rewrite d reply)).map Patchwork.text := by
    rw [List.map_map]
    exact List.map_congr_left fun p hp => by rw [hending p hp]; rfl
  have hready : ps.all (fun p => (ending d reply (limit + 1) p).ready) = true :=
    List.all_eq_true.2 fun p hp => by rw [hending p hp]
  simp only [outcome, htexts, hready]

theorem outcome_next {limit : Nat} {ps : List Patchwork}
    (hopen : ∃ p ∈ ps, p.isFinal d reply = false) (passes : Nat) :
    outcome d reply (limit + 1) ps passes =
      outcome d reply limit (ps.map (rewrite d reply)) passes := by
  have htexts : ps.map (fun p => (ending d reply (limit + 1) p).text) =
      (ps.map (rewrite d reply)).map fun p => (ending d reply limit p).text := by
    rw [List.map_map]
    exact List.map_congr_left fun p _ => ending_text limit p
  simp only [outcome, htexts, all_ready_next hopen]

/-- A run over a text in parts ends as the runs over the parts do. -/
theorem runFrom_parts (h : r.Steady t.delimiters fallback reply) (limit index : Nat)
    (ps : List Patchwork) (state : σ) (hne : ps ≠ []) (hsolid : ∀ p ∈ ps, p.Solid) :
    ∃ passes, Slowest t.delimiters reply limit ps passes ∧
      (t.runFrom r limit index (.ofParts ps false) (ps.map Patchwork.text) state).result =
        .ok { outcome t.delimiters reply limit ps passes with passes := index + passes } := by
  induction limit generalizing index ps state with
  | zero =>
    refine ⟨0, slowest_zero hne, ?_⟩
    rw [runFrom_over (.inl rfl), outcome_zero ps hne]
    rfl
  | succ limit ih =>
    have hd : (t.passInfo index).delimiters = t.delimiters := rfl
    obtain ⟨state', hpass⟩ := Scene.pass_steady h hd ps false state hsolid
    rw [runFrom_next rfl hpass]
    simp only [Scene.cut_ofParts]
    cases hall : ps.all (isFinal t.delimiters reply) with
    | true =>
      have hfinal := List.all_eq_true.1 hall
      refine ⟨1, slowest_final hne hfinal, ?_⟩
      rw [runFrom_over (.inr rfl), outcome_final hfinal]
      simp [Scene.ofParts]
    | false =>
      obtain ⟨p, hp, hopen⟩ := List.all_eq_false.1 hall
      have hopen : ∃ p ∈ ps, p.isFinal t.delimiters reply = false := ⟨p, hp, by simpa using hopen⟩
      have hsolid' : ∀ q ∈ ps.map (rewrite t.delimiters reply), q.Solid := by
        intro q hq
        obtain ⟨p, hp, rfl⟩ := List.mem_map.1 hq
        exact (hsolid p hp).rewrite
      obtain ⟨passes, hslow, hresult⟩ := ih (index + 1) (ps.map (rewrite t.delimiters reply))
        (r.endPass (t.passInfo index) state') (by simpa using hne) hsolid'
      refine ⟨passes + 1, hslow.next hopen, ?_⟩
      rw [hresult, outcome_next hopen, Nat.add_assoc, Nat.add_comm 1]
      rfl

/-- The paths that tags have in the whole text play no part in how the runs over the parts end. -/
theorem slowest_bare {limit passes : Nat} {ps : List Patchwork} :
    Slowest d reply limit (ps.map bare) passes ↔ Slowest d reply limit ps passes := by
  simp [Slowest, ending_bare]

theorem outcome_bare (limit : Nat) (ps : List Patchwork) (passes : Nat) :
    outcome d reply limit (ps.map bare) passes = outcome d reply limit ps passes := by
  have htext : (ps.map bare).map (fun p => (ending d reply limit p).text) =
      ps.map fun p => (ending d reply limit p).text := by
    rw [List.map_map]
    exact List.map_congr_left fun p _ => by simp [ending_bare]
  have hready : (ps.map bare).all (fun p => (ending d reply limit p).ready) =
      ps.all fun p => (ending d reply limit p).ready := by
    rw [List.all_map]
    exact List.all_congr rfl fun p => by simp [ending_bare]
  simp only [outcome, htext, hready]

/-- A template whose text is in parts is rendered like the parts. -/
theorem runWith_parts (h : r.Steady t.delimiters fallback reply) (ps : List Patchwork) (s : σ)
    (hne : ps ≠ []) (htexts : ps.map Patchwork.text = t.fragments)
    (hwhole : Depicts t.delimiters 0 (joined ps) t.outline.tags)
    (hparts : ∀ p ∈ ps, ∃ tags, Depicts t.delimiters 0 p tags) :
    ∃ passes, Slowest t.delimiters reply passLimit ps passes ∧
      (t.runWith r s).result = .ok (outcome t.delimiters reply passLimit ps passes) := by
  obtain ⟨qs, hjoined, hbare⟩ := exists_label_joined ps [] 0 hparts
  have htexts' : qs.map Patchwork.text = t.fragments := by
    rw [← htexts, ← hbare, List.map_map]
    exact List.map_congr_left fun q _ => (text_bare q).symm
  have hscene : t.scene = .ofParts qs false := by
    have hagenda : (joined qs).agenda 0 = t.scene.agenda := by
      rw [← hjoined]
      exact agenda_label hwhole [] 0
    have htext : t.text = (joined qs).text := by rw [text_joined, htexts']; rfl
    simp only [Scene.ofParts, htexts', hagenda, ← htext]
    rfl
  have hsolid : ∀ q ∈ qs, q.Solid := by
    rw [← solid_joined, ← hjoined]
    exact solid_label hwhole [] 0
  have hqs : qs ≠ [] := by
    rintro rfl
    exact hne hbare.symm
  obtain ⟨passes, hslow, hresult⟩ := runFrom_parts h passLimit 0 qs (r.startRun s) hqs hsolid
  rw [← hbare]
  refine ⟨passes, slowest_bare.2 hslow, ?_⟩
  rw [outcome_bare, runWith, hscene, ← htexts', hresult, Nat.zero_add]
  rfl

end Template

/-- A run that ends like several others taken together. -/
structure Outcome.Merges (outcomes : List Outcome) (o : Outcome) : Prop where
  fragments : o.fragments = outcomes.flatMap Outcome.fragments
  ready : o.ready = outcomes.all Outcome.ready
  passes : (outcomes.map Outcome.passes).max? = some o.passes

namespace Template

variable {d : Delimiters} {reply : Text → Answer} {limit passes : Nat} {ps : List Patchwork}

theorem merges_outcome (h : Slowest d reply limit ps passes) :
    Outcome.Merges (ps.map fun p => outcome d reply limit [p] (ending d reply limit p).passes)
      (outcome d reply limit ps passes) := by
  constructor
  · rw [List.flatMap_map]
    exact List.map_eq_flatMap
  · rw [List.all_map]
    exact List.all_congr rfl fun p => by simp [outcome]
  · rw [List.map_map, List.max?_eq_some_iff]
    obtain ⟨⟨p, hp, hpasses⟩, hle⟩ := h
    refine ⟨List.mem_map.2 ⟨p, hp, hpasses⟩, fun n hn => ?_⟩
    obtain ⟨q, hq, rfl⟩ := List.mem_map.1 hn
    exact hle q hq

/-- A template of one part is rendered like that part. -/
theorem runWith_part {t : Template} {r : Responder σ} {fallback : Fallback}
    (h : r.Steady t.delimiters fallback reply) (p : Patchwork) (s : σ)
    (htext : t.fragments = [p.text]) (hp : Depicts t.delimiters 0 p t.outline.tags) :
    (t.runWith r s).result = .ok (outcome t.delimiters reply passLimit [p]
      (ending t.delimiters reply passLimit p).passes) := by
  obtain ⟨passes, ⟨⟨q, hq, hpasses⟩, -⟩, hresult⟩ := runWith_parts h [p] s (by simp) htext.symm
    (by simpa using hp) (by simpa using ⟨_, hp⟩)
  rw [List.mem_singleton.1 hq] at hpasses
  rw [hresult, hpasses]

/-- Fragments that no tag crosses from one into another are rendered together as each of them is
alone. -/
theorem fragments_independent {fragments : List Text} {t : Template} {r : Renderer σ} (s : σ)
    (ht : ofFragments fragments = .ok t) (hne : fragments ≠ [])
    (hcross : ∀ tag ∈ t.outline.tags.toList, ∀ n ∈ t.boundaries,
      ¬ (tag.start < n ∧ n < tag.stop))
    (hr : r.AnswersByTag) :
    ∃ outcomes merged, (t.run r s).result = .ok merged ∧ Outcome.Merges outcomes merged ∧
      List.Forall₂ (fun fragment outcome => outcome.fragments.length = 1 ∧
        ∃ alone, ofText fragment = .ok alone ∧ ∀ s, (alone.run r s).result = .ok outcome)
        fragments outcomes := by
  obtain ⟨rfl, -, hdelimiters, -⟩ := read_eq_ok.1 ht
  obtain ⟨m, hvalid, hsource, houtline⟩ := Markup.exists_of_outline t.outline_eq
  obtain ⟨first, rest, hfragments⟩ := List.exists_cons_of_ne_nil hne
  have htags : t.outline.tags = m.tags t.delimiters 0 := by rw [houtline]
  rw [boundaries, hfragments, htags] at hcross
  rw [hfragments] at hsource
  obtain ⟨ms, hparts, hsources, hms⟩ := hvalid.exists_parts first rest 0 hsource hcross
  obtain ⟨ps, htexts, hjoined, halone⟩ := Markup.exists_patchworks ms hparts
  rw [hsources, ← hfragments] at htexts
  obtain ⟨fallback, reply, hsteady⟩ := hr.steady t.delimiters
  have hps : ps ≠ [] := by
    rintro rfl
    exact hne htexts.symm
  have hwhole : Depicts t.delimiters 0 (joined ps) t.outline.tags := by
    rw [htags, hms]
    exact hjoined 0
  obtain ⟨passes, hslow, hresult⟩ := runWith_parts hsteady ps s hps htexts hwhole fun p hp => by
    obtain ⟨o, -, hdepicts⟩ := halone p hp
    exact ⟨_, hdepicts⟩
  refine ⟨_, _, hresult, merges_outcome hslow, ?_⟩
  rw [← htexts, List.forall₂_map_left_iff, List.forall₂_map_right_iff, List.forall₂_same]
  intro p hp
  obtain ⟨o, ho, hdepicts⟩ := halone p hp
  rw [hdelimiters] at ho
  let alone : Template := ⟨[p.text], .single, .standard, o, [], by simpa using ho⟩
  refine ⟨rfl, alone, read_eq_ok.2 ⟨rfl, rfl, rfl, rfl⟩, fun s => ?_⟩
  rw [hdelimiters] at hsteady hdepicts ⊢
  exact runWith_part hsteady p s rfl hdepicts

/-- A tag at the end of a fragment that leaves nothing, an empty fragment, and a tag at the
beginning of one that takes a second pass. -/
theorem fragments_independent_touching :
    let fragments : List Text := ["é[[a]]".toList, [], "[[b]]x".toList]
    let r : Renderer Unit := {
      answer := fun _ _ tag _ =>
        (.ok (if tag.key = ['b'] then .pending "[[a]]".toList else .final []), ()) }
    ∃ t outcomes, ofFragments fragments = .ok t ∧
      (t.run r ()).result = .ok ⟨["é".toList, [], ['x']], true, 2⟩ ∧
      Outcome.Merges outcomes ⟨["é".toList, [], ['x']], true, 2⟩ ∧
      List.Forall₂ (fun fragment outcome => outcome.fragments.length = 1 ∧
        ∃ alone, ofText fragment = .ok alone ∧ ∀ s, (alone.run r s).result = .ok outcome)
        fragments outcomes := by
  intro fragments r
  let tags : Forest Tag :=
    .cons ⟨.inline, ⟨['a'], []⟩, 2, 7⟩ .nil (.tree ⟨.inline, ⟨['b'], []⟩, 7, 12⟩ .nil)
  let t : Template :=
    ⟨fragments, .fragments, .standard, ⟨13, tags⟩, [], by decide +kernel⟩
  have ht : ofFragments fragments = .ok t := read_eq_ok.2 ⟨rfl, rfl, rfl, rfl⟩
  have hr : r.AnswersByTag :=
    ⟨⟨_, fun _ _ _ _ => rfl⟩, .retry, by simp, fun _ => rfl⟩
  obtain ⟨outcomes, merged, hresult, hmerges, halone⟩ := fragments_independent () ht (by decide)
    (by decide) hr
  have hrun : (t.run r ()).result = .ok ⟨["é".toList, [], ['x']], true, 2⟩ := by decide +kernel
  cases hresult.symm.trans hrun
  exact ⟨t, outcomes, ht, hrun, hmerges, halone⟩

end Template

end TagMarkup
