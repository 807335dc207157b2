import TagMarkup.Proofs.Filter.Macro
import TagMarkup.Proofs.Filter.Rest
import TagMarkup.Proofs.Markup.Flat
import TagMarkup.Proofs.Rendering.Rounds

/-! Templates that define a filter and use it. Uses behind the definition find the filter in the
same pass. Those in front of it find none, so they are asked about again, and find it in the next
pass. In the end the text does not tell where the definition was (`Macro.render_definition`). -/

namespace TagMarkup

open Delimiters (standard)

namespace Macro

/-- The usual key of definitions. -/
def definerKey : Key where
  text := "def".toList
  shape := .inr ⟨'d', "ef".toList, [], rfl, .inr rfl, List.all_eq_true.1 rfl, nofun⟩

/-- What stands behind the key of a definition. -/
def defined (name : Key) (body : Unbracketed) : Unbracketed where
  text := name.text ++ (standard.sep ++ body.text)
  opens := by
    have hname := name.not_mem (c := '[') (by decide) (by decide) (by decide)
    simp [hname, body.opens, show '[' ∉ standard.sep by decide]
  closes := by
    have hname := name.not_mem (c := ']') (by decide) (by decide) (by decide)
    simp [hname, body.closes, show ']' ∉ standard.sep by decide]

/-- The tag that defines a filter with a body under a name. -/
def definition (name : Key) (body : Unbracketed) : Leaf := ⟨definerKey, some (defined name body)⟩

/-- The definition has the name as its first group, and behind it the groups of the body. -/
theorem groups_definition (name : Key) (body : Unbracketed) :
    (definition name body).call.groups = [name.text] :: templateGroups standard body.text := by
  let cuts := Cuts.ofDelimiters standard
  have hclear (a b : Text) (hab : name.text = a ++ b) (hb : b ≠ []) :
      cuts.at? (b ++ (standard.sepOf .group ++ body.text)) = none := by
    refine Cuts.ofDelimiters_at?_eq_none fun level => ?_
    have hsuffix : b <:+ name.text := hab ▸ List.suffix_append a b
    refine Text.not_begins_of_head (standard.sepOf_ne_nil level) hsuffix hb fun c hc => ?_
    cases level with
    | group =>
      obtain rfl : ':' = c := Option.some.inj hc
      exact name.not_mem (by decide) (by decide) (by decide)
    | value =>
      obtain rfl : '|' = c := Option.some.inj hc
      exact name.not_mem (by decide) (by decide) (by decide)
  have hpieces : cuts.pieces (defined name body).text =
      name.text.map (fun x => .kept [x]) ++ .cut .group :: cuts.pieces body.text := by
    have hsep := Cuts.pieces_of_at?_eq_some (Cuts.ofDelimiters_at?_sep standard .group body.text)
    rw [← hsep]
    exact Cuts.pieces_append hclear
  show templateGroups standard (defined name body).text = _
  rw [templateGroups_of_plain (defined name body).opens, templateGroups_of_plain body.opens,
    hpieces, Groups.ofPieces_kept_chars]
  simp [Groups.toList, cuts]

/-- A passage of a template: a text in which no tag opens, or a tag that uses the defined filter. -/
inductive Passage
  | text (t : Text) (plain : '[' ∉ t)
  | use (args? : Option Unbracketed)

namespace Passage

def bit (name : Key) : Passage → Bit
  | text t plain => .text t plain
  | use args? => .tag ⟨name, args?⟩

def isUse : Passage → Bool
  | text .. => false
  | use _ => true

/-- What the passage becomes: in the place of a use there is the body, filled with the groups of the
use. Of these only as many take part as 64 bits can number, and no text in memory has more. -/
def expansion (name : Key) (body : Unbracketed) : Passage → Text
  | text t _ => t
  | use args? =>
    substitute ((Leaf.call ⟨name, args?⟩).groups.take UInt64.size) standard.subSep body.text

theorem not_mem_expansion (name : Key) (body : Unbracketed) (passage : Passage) :
    '[' ∉ passage.expansion name body := by
  cases passage with
  | text t plain => exact plain
  | use args? =>
    let call := Leaf.call ⟨name, args?⟩
    show '[' ∉ substitute (call.groups.take UInt64.size) standard.subSep body.text
    rw [← fill_eq]
    intro hmem
    rcases mem_fill hmem with h | h | ⟨values, hvalues, v, hv, h⟩
    · exact body.opens h
    · exact absurd h (by decide)
    · cases args? with
      | none => cases hvalues
      | some args => exact args.opens (mem_of_mem_templateGroups hvalues hv h)

end Passage

/-- The defined filter. -/
def named (body : Unbracketed) : Macro := ⟨templateGroups standard body.text, .body⟩

/-- Tags with the name find the defined filter, or none. -/
structure Serves (name : Text) (macro? : Option Macro) (h : Host) : Prop where
  fallback : h.manager.fallback = .retry
  definer : h.manager.live.get? definerKey.text = some ⟨definer .body .template, .template⟩
  named : h.manager.live.get? name = macro?.map fun m => ⟨m.filter, .template⟩

section Answers

variable {info : PassInfo} {h : Host} (leaf : Leaf)

theorem ask_unknown (hd : info.delimiters = standard) (path? : Option Path)
    (hget : h.manager.live.get? leaf.key.text = none) :
    Host.renderer.responder.ask info path? leaf.source h =
      (.error (.unknownKey leaf.key.text), h) := by
  unfold Renderer.responder
  simp only [hd, leaf.single]
  show Host.answer .. = _
  simp only [Host.answer, hget]

theorem ask_found {filter : Filter} (hd : info.delimiters = standard) (path? : Option Path)
    (hget : h.manager.live.get? leaf.key.text = some ⟨filter, .template⟩) :
    Host.renderer.responder.ask info path? leaf.source h =
      let performed := Host.perform (filter leaf.call ⟨path?, info⟩) h
      (performed.1.mapError (.filter leaf.key.text), performed.2) := by
  unfold Renderer.responder
  simp only [hd, leaf.single]
  show Host.answer .. = _
  simp only [Host.answer, hget, hd, leaf.call_single]

end Answers

/-- An answer without brackets takes the place of the tag. -/
theorem settledTag_pending {t : Text} (h : '[' ∉ t) (path? : Option Path) (leaf : Leaf) :
    Patchwork.settledTag standard (fun _ => .pending t) path? leaf.source = .plain t := by
  have hne : t ≠ leaf.source := by
    rintro rfl
    exact h List.mem_cons_self
  simp [Patchwork.settledTag, Answer.pending, hne, Patchwork.ofAnswer_plain h]

section Work

variable (info : PassInfo) {name : Key} {body : Unbracketed} {h : Host}

theorem ready_use (args? : Option Unbracketed) (passages : List Passage) (ready : Bool) :
    (ready && !(Passage.use args? :: passages).any Passage.isUse) = false := by
  simp [Passage.isUse]

/-- Uses for which there is no filter are kept. -/
theorem work_unnamed (hd : info.delimiters = standard) (hs : Serves name.text none h)
    (passages : List Passage) (index : Nat) (ready : Bool) :
    (Patchwork.work Host.renderer.responder info .retry
      (Bit.patchwork index (passages.map (Passage.bit name)))).run ⟨ready, h⟩ =
        (.ok (Bit.patchwork index (passages.map (Passage.bit name))),
          ⟨ready && !passages.any Passage.isUse, h⟩) := by
  induction passages generalizing index ready with
  | nil => rw [List.any_nil, Bool.not_false, Bool.and_true]; rfl
  | cons passage passages ih =>
    cases passage with
    | text t plain => exact Patchwork.run_work_append (p := .plain t) rfl (ih index ready)
    | use args? =>
      have hask := ask_unknown ⟨name, args?⟩ hd (some [index]) hs.named
      rw [ready_use]
      exact Patchwork.run_work_append (Patchwork.run_work_retried hask) (ih (index + 1) false)

/-- Uses of the defined filter give way to its body. -/
theorem work_named (hd : info.delimiters = standard)
    (hs : Serves name.text (some (named body)) h) (passages : List Passage) (index : Nat)
    (ready : Bool) :
    (Patchwork.work Host.renderer.responder info .retry
      (Bit.patchwork index (passages.map (Passage.bit name)))).run ⟨ready, h⟩ =
        (.ok (.plain (passages.flatMap (Passage.expansion name body))),
          ⟨ready && !passages.any Passage.isUse, h⟩) := by
  induction passages generalizing index ready with
  | nil => rw [List.any_nil, Bool.not_false, Bool.and_true]; rfl
  | cons passage passages ih =>
    cases passage with
    | text t plain => exact Patchwork.run_work_append (p := .plain t) rfl (ih index ready)
    | use args? =>
      let leaf : Leaf := ⟨name, args?⟩
      have hask := ask_found leaf hd (some [index]) hs.named
      have hfill : (named body).expand info.delimiters leaf.call =
          Passage.expansion name body (.use args?) := by
        rw [hd]
        exact (expand_templateGroups leaf.call body.text).trans (fill_eq ..)
      have hanswer : Host.renderer.responder.ask info (some [index]) leaf.source h =
          (.ok (.pending (Passage.expansion name body (.use args?))), h) := by
        rw [hask, ← hfill]
        rfl
      have hplain := Passage.not_mem_expansion name body (.use args?)
      have hunready : (ready && (Answer.pending
          (Passage.expansion name body (.use args?))).ready) = false := Bool.and_false ready
      have huse := Patchwork.run_work_answered .retry (s := ⟨ready, h⟩) hanswer
      rw [hd, settledTag_pending hplain, hunready] at huse
      rw [ready_use]
      exact Patchwork.run_work_append huse (ih (index + 1) false)

/-- The definition puts its filter under the name, and leaves no text. -/
theorem work_definition (hd : info.delimiters = standard) (hs : Serves name.text none h)
    (hname : name.text ≠ []) (path? : Option Path) (ready : Bool) :
    ∃ h', Serves name.text (some (named body)) h' ∧
      (Patchwork.work Host.renderer.responder info .retry
        (.one (.tag path?) (.plain (definition name body).source))).run ⟨ready, h⟩ =
          (.ok (.plain []), ⟨ready, h'⟩) := by
  let leaf := definition name body
  let installed : Installed := ⟨(named body).filter, .template⟩
  let h' := h.withFilters (h.manager.live.insert name.text installed)
  -- there is a filter for definitions, but none for the name
  have hdef : definerKey.text ≠ name.text := by
    intro heq
    have := hs.named
    rw [← heq, hs.definer] at this
    cases this
  refine ⟨h', ⟨hs.fallback, ?_, ?_⟩, ?_⟩
  · show (h.manager.live.insert name.text installed).get? definerKey.text = _
    rw [Table.get?_insert, if_neg hdef, hs.definer]
  · show (h.manager.live.insert name.text installed).get? name.text = _
    rw [Table.get?_insert, if_pos rfl]
    rfl
  · have haction : definer .body .template leaf.call ⟨path?, info⟩ =
        .install name.text (named body).filter .template (.final []) := by
      have hvalue : leaf.call.value? 0 = some name.text := by
        unfold Call.value? Call.group?
        rw [groups_definition]
        rfl
      unfold definer
      rw [hvalue, groups_definition]
      split
      · next heq => cases heq
      · next heq => exact absurd (Option.some.inj heq) hname
      · next heq =>
        rw [← Option.some.inj heq]
        rfl
    have hask : Host.renderer.responder.ask info path? leaf.source h = (.ok (.final []), h') := by
      rw [ask_found leaf hd path? hs.definer, haction]
      rfl
    have hwork := Patchwork.run_work_answered .retry (s := ⟨ready, h⟩) hask
    have hready : (ready && (Answer.final []).ready) = ready := Bool.and_true ready
    rwa [hready] at hwork

end Work

theorem Serves.endPass {name : Text} {macro? : Option Macro} {h : Host}
    (hs : Serves name macro? h) : Serves name macro? h.endPass :=
  ⟨hs.fallback, hs.definer, hs.named⟩

theorem serves_startRun {name : Text} {h : Host} (hfallback : h.manager.fallback = .retry)
    (hdefiner : h.manager.own.get? definerKey.text = some ⟨definer .body .template, .template⟩)
    (hname : h.manager.own.get? name = none) : Serves name none h.startRun := by
  have hlive : h.startRun.manager.live = h.manager.own :=
    (Host.atRest_startRun h).live.trans (Host.startRun_own h)
  constructor
  · rw [Host.startRun_fallback, hfallback]
  · rw [hlive, hdefiner]
  · rw [hlive, hname]
    rfl

theorem patchwork_of_no_use {name : Key} {passages : List Passage}
    (h : passages.any Passage.isUse = false) (index : Nat) (body : Unbracketed) :
    Bit.patchwork index (passages.map (Passage.bit name)) =
      .plain (passages.flatMap (Passage.expansion name body)) := by
  induction passages with
  | nil => rfl
  | cons passage passages ih =>
    cases passage with
    | text t plain =>
      have hrest : passages.any Passage.isUse = false := by simpa [Passage.isUse] using h
      show Patchwork.plain t ++ Bit.patchwork index (passages.map (Passage.bit name)) = _
      rw [ih hrest]
      rfl
    | use args? => simp [Passage.isUse] at h

section Template

variable (name : Key) (body : Unbracketed) (before after : List Passage)

/-- A definition and the passages in front of it and behind it. -/
def bits : List Bit :=
  before.map (Passage.bit name) ++ .tag (definition name body) :: after.map (Passage.bit name)

/-- The number of passes until all uses have found the filter and nothing is left to look at. -/
def passes : Nat :=
  if before.any Passage.isUse then 3 else if after.any Passage.isUse then 2 else 1

/-- The text without the definition, and with the filled body in the place of each use. -/
def rendered : Text := (before ++ after).flatMap (Passage.expansion name body)

variable {name} {t : Template} {h : Host}

/-- In the first pass the filter is defined, and the uses behind the definition find it. -/
theorem first_pass (index : Nat) (hd : t.delimiters = standard) (hs : Serves name.text none h)
    (hname : name.text ≠ []) : ∃ h', Serves name.text (some (named body)) h' ∧
      (Bit.patchwork 0 (bits name body before after)).pass Host.renderer.responder
        (t.passInfo index) h = (.ok (Bit.patchwork 0 (before.map (Passage.bit name)) ++
          .plain (after.flatMap (Passage.expansion name body)),
            !before.any Passage.isUse && !after.any Passage.isUse), h') := by
  obtain ⟨next, hbits⟩ := Bit.patchwork_append 0 (before.map (Passage.bit name))
    (.tag (definition name body) :: after.map (Passage.bit name))
  obtain ⟨h', hs', hdefinition⟩ := work_definition (t.passInfo index) hd hs hname
    (some [next]) (!before.any Passage.isUse)
  have hbefore := work_unnamed (t.passInfo index) hd hs before 0 true
  have hafter := work_named (t.passInfo index) hd hs' after (next + 1)
    (!before.any Passage.isUse)
  refine ⟨h', hs', Patchwork.pass_of_work ?_⟩
  have hfallback : Host.renderer.responder.fallback h = .retry := hs.fallback
  rw [hfallback, bits, hbits]
  exact Patchwork.run_work_append hbefore (Patchwork.run_work_append hdefinition hafter)

/-- In the next one the uses in front of the definition find it, too. -/
theorem second_pass (index : Nat) (hd : t.delimiters = standard)
    (hs : Serves name.text (some (named body)) h) (behind : Text) :
    (Bit.patchwork 0 (before.map (Passage.bit name)) ++ .plain behind).pass
      Host.renderer.responder (t.passInfo index) h =
        (.ok (.plain (before.flatMap (Passage.expansion name body) ++ behind),
          !before.any Passage.isUse), h) := by
  have hbefore := work_named (t.passInfo index) hd hs before 0 true
  refine Patchwork.pass_of_work ?_
  have hfallback : Host.renderer.responder.fallback h = .retry := hs.fallback
  rw [hfallback]
  exact Patchwork.run_work_append (q := .plain behind) hbefore rfl

theorem rounds_bits (hd : t.delimiters = standard) (hs : Serves name.text none h)
    (hname : name.text ≠ []) :
    t.Rounds Host.renderer.responder (rendered name body before after) (passes before after) 0
      (Bit.patchwork 0 (bits name body before after)) h := by
  obtain ⟨h', hs', hfirst⟩ := first_pass body before after 0 hd hs hname
  have hrendered : before.flatMap (Passage.expansion name body) ++
      after.flatMap (Passage.expansion name body) = rendered name body before after :=
    List.flatMap_append.symm
  -- a pending body is not ready, so after the pass with the last use there is one more
  cases hbefore : before.any Passage.isUse with
  | true =>
    have hsecond := second_pass body before 1 hd hs'.endPass
      (after.flatMap (Passage.expansion name body))
    rw [hbefore] at hfirst hsecond
    exact .next hfirst (.next hsecond (.last rfl hrendered (by simp [passes, hbefore])))
  | false =>
    rw [patchwork_of_no_use hbefore 0 body, hbefore] at hfirst
    cases hafter : after.any Passage.isUse with
    | true =>
      rw [hafter] at hfirst
      exact .next hfirst (.last rfl hrendered (by simp [passes, hbefore, hafter]))
    | false =>
      rw [hafter] at hfirst
      exact .last hfirst hrendered (by simp [passes, hbefore, hafter])

end Template

/-- A template with one definition and uses of it in front of it and behind it gets ready. All uses
give way to the body, wherever the definition is; only the number of passes tells whether there are
uses, and whether some of them come before it. -/
theorem render_definition {h : Host} {name : Key} (body : Unbracketed) (before after : List Passage)
    {fragments : List Text} (depth : Depth) (hfallback : h.manager.fallback = .retry)
    (hdefiner : h.manager.own.get? "def".toList = some ⟨definer .body .template, .template⟩)
    (hfree : h.manager.own.get? name.text = none) (hname : name.text ≠ [])
    (hsource : fragments.flatten = (bits name body before after).flatMap Bit.source) :
    ∃ t o, Template.read fragments depth standard = .ok t ∧
      (t.run Host.renderer h).result = .ok o ∧ o.ready = true ∧
      o.fragments.flatten = rendered name body before after ∧ o.passes = passes before after := by
  obtain ⟨t, ht, htext, hagenda⟩ := Bit.exists_template hsource depth
  obtain ⟨-, -, hd, -⟩ := Template.read_eq_ok.1 ht
  have hrounds := rounds_bits body before after hd
    (serves_startRun hfallback hdefiner hfree) hname
  have hlimit : passes before after ≤ passLimit := by
    unfold passes
    split
    · decide
    · split <;> decide
  obtain ⟨o, ho⟩ := Template.runWith_rounds hrounds hlimit htext hagenda
  exact ⟨t, o, ht, ho⟩

def greeting : Host :=
  let host := Manager.new ∅
  { host with manager := host.manager.addStandardDefiner }

/-- One use in front of the definition and one behind it, with a separator among its values. -/
theorem render_definition_greet :
    greeting.manager.fallback = .retry ∧
      greeting.manager.own.get? "def".toList = some ⟨definer .body .template, .template⟩ ∧
      greeting.manager.own.get? "greet".toList = none ∧ ∃ t o,
        Template.ofText "[[greet]]-[[def::greet::Hi %, %1!::]]-[[greet::x||y::z]]".toList = .ok t ∧
          (t.run Host.renderer greeting).result = .ok o ∧ o.ready = true ∧
          o.fragments.flatten = "Hi , !::--Hi x||y, z!::".toList ∧ o.passes = 3 := by
  let name : Key := ⟨"greet".toList,
    .inr ⟨'g', "reet".toList, [], rfl, .inr rfl, List.all_eq_true.1 rfl, nofun⟩⟩
  let body : Unbracketed := ⟨"Hi %, %1!::".toList, by decide, by decide⟩
  let args : Unbracketed := ⟨"x||y::z".toList, by decide, by decide⟩
  let before : List Passage := [.use none, .text "-".toList (by decide)]
  let after : List Passage := [.text "-".toList (by decide), .use (some args)]
  have hrendered : rendered name body before after = "Hi , !::--Hi x||y, z!::".toList := by
    decide +kernel
  refine ⟨rfl, rfl, rfl, ?_⟩
  rw [← hrendered]
  exact render_definition body before after .single rfl rfl rfl (by decide) (by decide +kernel)

end Macro

end TagMarkup
