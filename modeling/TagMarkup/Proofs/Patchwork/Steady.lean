import TagMarkup.Proofs.Patchwork.Labelled
import TagMarkup.Proofs.Patchwork.Parts

/-! Responders that give every text the same answer whenever they are asked. What a pass makes of a
patchwork follows then from the patchwork alone, part by part, whatever the paths of its tags are,
and so does the way in which a run over it ends. -/

namespace TagMarkup

variable {σ : Type}

/-- To every text the responder has one answer, which may be that of the fallback. -/
structure Responder.Steady (r : Responder σ) (d : Delimiters) (fallback : Fallback)
    (reply : Text → Answer) : Prop where
  policy : ∀ s, r.fallback s = fallback
  answers : ∀ info path? text s, info.delimiters = d →
    Patchwork.Leads s (Patchwork.answer r info fallback path? text)
      (fun a s' => a = reply text ∧ s'.ready = s.ready) fun _ => False

/-- The region as one that does not come from the template. -/
def RegionKind.bare : RegionKind → RegionKind
  | .tag _ => .tag none
  | .group => .group

namespace Patchwork

/-- The patchwork without the paths of its tags. -/
def bare : Patchwork → Patchwork
  | plain t => plain t
  | patch lead kind inner rest => patch lead kind.bare inner.bare rest.bare

@[simp] theorem text_bare (p : Patchwork) : p.bare.text = p.text := by
  induction p with
  | plain t => rfl
  | patch lead kind inner rest ihi ihr => simp only [bare, text_patch, ihi, ihr]

@[simp] theorem bare_append (p q : Patchwork) : (p ++ q).bare = p.bare ++ q.bare := by
  induction p with
  | plain t => cases q <;> rfl
  | patch lead kind inner rest _ ih => simp only [patch_append, bare, ih]

@[simp] theorem bare_one (kind : RegionKind) (inner : Patchwork) :
    (one kind inner).bare = one kind.bare inner.bare := rfl

section Rewriting

variable (d : Delimiters) (reply : Text → Answer)

/-- What takes the place of a tag in which nothing is left to do. -/
def settledTag (path? : Option Path) (text : Text) : Patchwork :=
  if (reply text).ready then plain (reply text).text
  else if (reply text).text = text then one (.tag path?) (plain text)
  else ofAnswer d (reply text).text

/-- What takes the place of a region that holds `inner`. -/
def settled : RegionKind → Patchwork → Patchwork
  | .group, plain t => plain t
  | .group, inner => one .group inner
  | .tag path?, plain t => settledTag d reply path? t
  | .tag path?, inner => one (.tag path?) inner

/-- The region is not a tag that has to wait, or that has an answer which is not ready. -/
def isSettled : RegionKind → Patchwork → Bool
  | .group, _ => true
  | .tag _, plain t => (reply t).ready
  | .tag _, patch .. => false

/-- The patchwork after a pass. -/
def rewrite : Patchwork → Patchwork
  | plain t => plain t
  | patch lead kind inner rest =>
    plain lead ++ settled d reply kind inner.rewrite ++ rest.rewrite

/-- Every answer of a pass over the patchwork is ready. -/
def isFinal : Patchwork → Bool
  | plain _ => true
  | patch _ kind inner rest =>
    inner.isFinal && (isSettled reply kind (inner.rewrite d reply) && rest.isFinal)

end Rewriting

variable {d : Delimiters} {reply : Text → Answer}

section Passes

variable {r : Responder σ} {info : PassInfo} {fallback : Fallback} {s : Standing σ}

theorem settleTag_steady (h : r.Steady d fallback reply) (hd : info.delimiters = d)
    (path? : Option Path) (t : Text) :
    Leads s (settleTag r info fallback path? t)
      (fun left s' => left = settledTag d reply path? t ∧ s'.ready = (s.ready && (reply t).ready))
      fun _ => False := by
  refine (h.answers info path? t s hd).bind ?_ fun _ h => h
  rintro answer s' ⟨rfl, hs⟩
  unfold settledTag
  cases hready : (reply t).ready with
  | true => exact .pure ⟨rfl, by simp [hs]⟩
  | false =>
    refine unready_leads.bind ?_ fun _ h => h
    rintro _ _ rfl
    show Leads _ (if (reply t).text = t then _ else _) _ _
    split
    next => exact .pure ⟨rfl, by simp⟩
    next => exact .pure ⟨by rw [hd]; rfl, by simp⟩

theorem settle_steady (h : r.Steady d fallback reply) (hd : info.delimiters = d)
    (kind : RegionKind) (inner : Patchwork) :
    Leads s (settle r info fallback kind inner)
      (fun left s' => left = settled d reply kind inner ∧
        s'.ready = (s.ready && isSettled reply kind inner)) fun _ => False := by
  cases kind with
  | group => cases inner <;> exact .pure ⟨rfl, by simp [isSettled]⟩
  | tag path? =>
    cases inner with
    | plain t => exact settleTag_steady h hd path? t
    | patch lead kind inner rest =>
      refine unready_leads.bind ?_ fun _ h => h
      rintro _ _ rfl
      exact .pure ⟨rfl, by simp [isSettled]⟩

/-- A pass rewrites the patchwork, and notices if an answer is not ready. -/
theorem work_steady (h : r.Steady d fallback reply) (hd : info.delimiters = d) (p : Patchwork) :
    Leads s (work r info fallback p)
      (fun q s' => q = p.rewrite d reply ∧ s'.ready = (s.ready && p.isFinal d reply))
      fun _ => False := by
  induction p generalizing s with
  | plain t => exact .pure ⟨rfl, by simp [isFinal]⟩
  | patch lead kind inner rest ihi ihr =>
    refine ihi.bind ?_ fun _ h => h
    rintro _ s₁ ⟨rfl, h₁⟩
    refine (settle_steady h hd kind _).bind ?_ fun _ h => h
    rintro _ s₂ ⟨rfl, h₂⟩
    refine ihr.bind ?_ fun _ h => h
    rintro _ s₃ ⟨rfl, h₃⟩
    exact .pure ⟨rfl, by rw [h₃, h₂, h₁, isFinal, Bool.and_assoc, Bool.and_assoc]⟩

theorem parts_steady (h : r.Steady d fallback reply) (hd : info.delimiters = d)
    (ps : List Patchwork) :
    Leads s (ps.mapM (work r info fallback))
      (fun qs s' => qs = ps.map (rewrite d reply) ∧
        s'.ready = (s.ready && ps.all (isFinal d reply))) fun _ => False := by
  induction ps generalizing s with
  | nil => exact .pure ⟨rfl, by simp⟩
  | cons p ps ih =>
    rw [List.mapM_cons]
    refine (work_steady h hd p).bind ?_ fun _ h => h
    rintro _ s₁ ⟨rfl, h₁⟩
    refine ih.bind ?_ fun _ h => h
    rintro _ s₂ ⟨rfl, h₂⟩
    exact .pure ⟨rfl, by rw [h₂, h₁, List.all_cons, Bool.and_assoc]⟩

end Passes

theorem settled_left (d : Delimiters) (reply : Text → Answer) (kind : RegionKind)
    (inner : Patchwork) : Left d kind inner (settled d reply kind inner) := by
  cases inner with
  | patch lead kind' inner rest =>
    cases kind with
    | group => exact .waits .group rfl
    | tag path? => exact .waits (.tag path?) rfl
  | plain t =>
    cases kind with
    | group => exact .gone t
    | tag path? =>
      show Left d _ _ (settledTag d reply path? t)
      unfold settledTag
      split
      · exact .final path? t _
      · split
        · exact .stays path? t
        · exact .pending path? t _

theorem lead_rewrite (d : Delimiters) (reply : Text → Answer) (p : Patchwork) :
    p.lead <+: (p.rewrite d reply).lead := by
  cases p with
  | plain t => exact List.prefix_rfl
  | patch lead kind inner rest =>
    rw [rewrite, append_assoc, lead_plain_append]
    exact List.prefix_append _ _

theorem Solid.rewrite {p : Patchwork} (h : p.Solid) : (p.rewrite d reply).Solid := by
  induction p with
  | plain t => trivial
  | patch lead kind inner rest ihi ihr =>
    obtain ⟨hholds, hinner, hrest⟩ := h
    have hleft : (settled d reply kind (inner.rewrite d reply)).Solid := by
      refine (settled_left d reply kind _).solid (fun hk => ?_) (ihi hinner)
      cases kind with
      | group => exact absurd rfl hk
      | tag path? =>
        intro hnil
        have hlead := lead_rewrite d reply inner
        rw [hnil] at hlead
        exact hholds (List.prefix_nil.1 hlead)
    exact solid_append.2 ⟨solid_append.2 ⟨trivial, hleft⟩, ihr hrest⟩

/-- After a pass in which every answer was ready nothing is left to do. -/
theorem isPlain_rewrite {p : Patchwork} (h : p.isFinal d reply = true) :
    (p.rewrite d reply).isPlain = true := by
  induction p with
  | plain t => rfl
  | patch lead kind inner rest ihi ihr =>
    simp only [isFinal, Bool.and_eq_true] at h
    obtain ⟨hinner, hsettled, hrest⟩ := h
    have hplain := eq_plain_of_isPlain (ihi hinner)
    have hleft : (settled d reply kind (inner.rewrite d reply)).isPlain = true := by
      rw [hplain] at hsettled ⊢
      cases kind with
      | group => rfl
      | tag path? => simp [settled, settledTag, show (reply _).ready = true from hsettled, isPlain]
    rw [rewrite, isPlain_append, isPlain_append, hleft, ihr hrest]
    rfl

section Endings

variable (d : Delimiters) (reply : Text → Answer)

/-- How a run over a patchwork ends: with which text, whether everything was ready in its last pass,
and after how many passes. -/
structure Ending where
  text : Text
  ready : Bool
  passes : Nat

/-- The ending of a run of at most so many passes. -/
def ending : Nat → Patchwork → Ending
  | 0, p => ⟨p.text, false, 0⟩
  | limit + 1, p =>
    let q := p.rewrite d reply
    if p.isFinal d reply then ⟨q.text, true, 1⟩
    else { ending limit q with passes := (ending limit q).passes + 1 }

end Endings

theorem ending_final {limit : Nat} {p : Patchwork} (h : p.isFinal d reply = true) :
    ending d reply (limit + 1) p = ⟨(p.rewrite d reply).text, true, 1⟩ := by
  simp [ending, h]

theorem ending_next {limit : Nat} {p : Patchwork} (h : p.isFinal d reply = false) :
    let more := ending d reply limit (p.rewrite d reply)
    ending d reply (limit + 1) p = ⟨more.text, more.ready, more.passes + 1⟩ := by
  simp [ending, h]

theorem ending_plain_le (limit : Nat) (t : Text) (p : Patchwork) :
    (ending d reply limit (plain t)).passes ≤ (ending d reply limit p).passes := by
  cases limit with
  | zero => exact Nat.le_refl _
  | succ limit =>
    rw [ending_final (p := plain t) rfl]
    cases h : p.isFinal d reply with
    | true => simp [ending_final h]
    | false => simp [ending_next h]

/-- A run ends with the text that one more pass would have left. -/
theorem ending_text (limit : Nat) (p : Patchwork) :
    (ending d reply (limit + 1) p).text = (ending d reply limit (p.rewrite d reply)).text := by
  cases h : p.isFinal d reply with
  | false => rw [ending_next h]
  | true =>
    rw [ending_final h, eq_plain_of_isPlain (isPlain_rewrite h)]
    cases limit <;> rfl

section Bare

theorem bare_of_depicts {n : Nat} {p : Patchwork} {tags : Forest Tag} (h : Depicts d n p tags) :
    p.bare = p := by
  induction h with
  | plain => rfl
  | patch _ _ _ _ _ ihi ihr => simp only [bare, RegionKind.bare, ihi, ihr]

theorem bare_label {n : Nat} {p : Patchwork} {tags : Forest Tag} (h : Depicts d n p tags)
    (around : Path) (index : Nat) : (p.label around index).bare = p := by
  induction h generalizing around index with
  | plain => rfl
  | patch _ _ _ _ _ ihi ihr => simp only [label, bare, RegionKind.bare, ihi, ihr]

theorem bare_ofAnswer (d : Delimiters) (text : Text) :
    (ofAnswer d text).bare = ofAnswer d text := by
  rcases ofAnswer_cases d text with h | ⟨p, tags, hp, -, h | h⟩
  · rw [h]
    rfl
  · rw [h, bare_of_depicts hp]
  · rw [h, bare_one, bare_of_depicts hp]
    rfl

theorem settled_bare (kind : RegionKind) (inner : Patchwork) :
    settled d reply kind.bare inner.bare = (settled d reply kind inner).bare := by
  cases inner with
  | patch lead kind' inner rest => cases kind <;> rfl
  | plain t =>
    cases kind with
    | group => rfl
    | tag path? =>
      show settledTag d reply none t = (settledTag d reply path? t).bare
      unfold settledTag
      split
      · rfl
      · split
        · rfl
        · rw [bare_ofAnswer]

theorem isSettled_bare (kind : RegionKind) (inner : Patchwork) :
    isSettled reply kind.bare inner.bare = isSettled reply kind inner := by
  cases kind <;> cases inner <;> rfl

theorem rewrite_bare (p : Patchwork) :
    p.bare.rewrite d reply = (p.rewrite d reply).bare := by
  induction p with
  | plain t => rfl
  | patch lead kind inner rest ihi ihr =>
    simp only [bare, rewrite, bare_append, ihi, ihr, settled_bare]

theorem isFinal_bare (p : Patchwork) : p.bare.isFinal d reply = p.isFinal d reply := by
  induction p with
  | plain t => rfl
  | patch lead kind inner rest ihi ihr =>
    simp only [bare, isFinal, rewrite_bare, ihi, ihr, isSettled_bare]

/-- The paths of its tags play no part in how a run over a patchwork ends. -/
theorem ending_bare (limit : Nat) (p : Patchwork) :
    ending d reply limit p.bare = ending d reply limit p := by
  induction limit generalizing p with
  | zero => simp [ending]
  | succ limit ih => simp only [ending, isFinal_bare, rewrite_bare, text_bare, ih]

end Bare

end Patchwork

end TagMarkup
