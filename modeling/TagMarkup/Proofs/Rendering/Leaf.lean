import TagMarkup.Proofs.Markup.Values
import TagMarkup.Proofs.Rendering.History
import TagMarkup.Rendering.Delayed

/-! The tags of a template that have no tags in them. Whatever gives way around them, in whatever
pass, a renderer hears of each of them under its path and as it was written, with the values that
the tree has for it (`leaves_as_written`). -/

namespace TagMarkup

variable {σ : Type}

/-- A visit finds a tag of the template as it was written, and the renderer hears of it under its
path, with what the tree says for it. -/
structure Visit.AsWritten (v : Visit) (t : Template) (r : Renderer σ) (path : Path) (node : Node) :
    Prop where
  text : t.text.slice? node.start node.stop = some v.text
  heard : ∃ tag s, v.tag? = some tag ∧ v.answer = (r.answer v.info (some path) tag s).1 ∧
    t.call? path = some (tag.call t.delimiters .template)

theorem Renderer.ask_of_tag? {r : Renderer σ} {v : Visit} {tag : SingleTag}
    (h : v.tag? = some tag) (s : σ) :
    r.responder.ask v.info v.path? v.text s = r.answer v.info v.path? tag s := by
  simp only [responder, Visit.ofText_of_tag? h]

namespace Template

variable {t : Template} {r : Renderer σ} {p x : Patchwork} {vs : List Visit} {index : Nat}
  {ready : Bool} {path : Path} {node : Node}

/-- The patchwork of a template at a tag with no tags in it. -/
theorem exists_leaf (hp : Depicts t.delimiters 0 p t.outline.tags) (htext : p.text = t.text)
    (hx : (path, x) ∈ (p.label [] 0).tags) (hnode : t.at? path = some node)
    (hleaf : node.children = []) : ∃ i more tag u, path = i :: more ∧
      t.outline.tags.find? i more = some (tag, .nil) ∧ node.tag? = some tag ∧ x = .plain u ∧
      node.start = tag.start ∧ node.stop = tag.stop ∧
      t.text.slice? node.start node.stop = some u := by
  obtain ⟨i, more, tag, inside, rfl, hfind, hholds⟩ := Patchwork.mem_tags_label hp hx
  rw [List.nil_append, Nat.zero_add] at hnode ⊢
  have hat := t.outline.at?_cons i more
  rw [hfind] at hat
  obtain ⟨parent, first, hat⟩ := hat
  obtain rfl := Option.some.inj (hnode.symm.trans hat)
  obtain rfl : inside = .nil := Forest.numbers_eq_nil.1 hleaf
  have hplain : x = .plain x.text := Patchwork.eq_plain_of_isPlain (hholds.isPlain rfl)
  refine ⟨i, more, tag, x.text, rfl, hfind, rfl, hplain, rfl, rfl, ?_⟩
  obtain ⟨front, behind, hpart, hstart, hstop⟩ := hholds.part
  rw [Text.slice?_eq_some]
  show ∃ a b, t.text = a ++ (x.text ++ b) ∧ a.bytes = tag.start ∧ a.bytes + x.text.bytes = tag.stop
  exact ⟨front, behind, htext.symm.trans hpart, by omega, by omega⟩

theorem Course.asWritten (h : t.Course r.responder index (p.label [] 0) vs ready)
    (hp : Depicts t.delimiters 0 p t.outline.tags) (htext : p.text = t.text)
    (hd : t.delimiters.OpenerApart) (hnode : t.at? path = some node) (hleaf : node.children = [])
    {v : Visit} (hv : v ∈ vs) (hpath : v.path? = some path) : v.AsWritten t r path node := by
  obtain ⟨x, hx, -, hplain⟩ := h.begins hv hpath
  obtain ⟨i, more, tag, u, rfl, hfind, htag, rfl, hstart, hstop, hslice⟩ :=
    exists_leaf hp htext hx hnode hleaf
  obtain rfl : v.text = u := hplain u rfl
  refine ⟨hslice, ?_⟩
  obtain ⟨slice, read, hslice', hread, hcall⟩ := t.outline.call_of_slice hd t.outline_eq hfind
  rw [hstart, hstop] at hslice
  cases hslice.symm.trans hslice'
  have hheard : v.tag? = some read := by
    rw [h.tag?_eq hv, hread]
    rfl
  obtain ⟨s, hs⟩ := h.answer v hv
  rw [Renderer.ask_of_tag? hheard, hpath] at hs
  refine ⟨read, s, hheard, hs, ?_⟩
  rw [call?, hnode, Option.map_some, Node.call, htag, hcall]
  rfl

/-- At every visit of a tag of the tree with no tags in it, the tag is as it was written. Every pass
that ends visits it, until it has had an answer that was not to leave it as it is. -/
theorem leaves_as_written {fragments : List Text} {depth : Depth} (r : Renderer σ) (s : σ)
    (ht : read fragments depth .standard = .ok t) :
    let run := t.runWith r.responder.recorded (.start r.responder s)
    t.run r s = run.map Record.state ∧
      ∀ path node, path ≠ [] → t.at? path = some node → node.children = [] →
        (∀ v ∈ run.state.visits, v.path? = some path → v.AsWritten t r path node) ∧
        ∀ k < run.intermediate.length, ∃ v ∈ run.state.visits, v.path? = some path ∧
          (v.info.index = k ∨ v.info.index < k ∧ v.outcome? ≠ some (.pending v.text)) := by
  intro run
  obtain ⟨-, -, hdelimiters, -⟩ := read_eq_ok.1 ht
  have hd : t.delimiters.OpenerApart := hdelimiters ▸ Delimiters.standard_openerApart
  obtain ⟨p, htext, hdepicts, hagenda⟩ := t.exists_patchwork
  have hscene : (p.label [] 0).text = t.scene.text := (Patchwork.text_label [] 0 p).trans htext
  obtain ⟨vs, ready, hvs, hcourse, hwatch, -⟩ := runFrom_course passLimit 0 t.scene (p.label [] 0)
    t.fragments (r.responder.recorded.startRun (.start r.responder s)) hscene hagenda rfl rfl
  have hvisits : run.state.visits = vs := hvs
  rw [hvisits]
  refine ⟨run_recorded t r.responder s, fun path node hroot hnode hleaf => ⟨?_, ?_⟩⟩
  · intro v hv hpath
    exact hcourse.asWritten hdepicts htext hd hnode hleaf hv hpath
  · intro k hk
    obtain ⟨x, hx⟩ := Patchwork.mem_paths.1 (mem_paths_of_at? hdepicts hroot hnode)
    obtain ⟨_, _, _, u, _, -, -, rfl, -⟩ := exists_leaf hdepicts htext hx hnode hleaf
    have hvisit := hwatch k hk path u hx
    rwa [Nat.zero_add] at hvisit

theorem leaves_as_written_delayed :
    ∃ t node, read ["é[[a::[[b::c||d]]]]".toList] .single .standard = .ok t ∧
      t.at? [0, 0] = some node ∧ node.children = [] ∧
      let r := Renderer.delayed 1
      let run := t.runWith r.responder.recorded (.start r.responder ())
      ∃ v ∈ run.state.visits, v.path? = some [0, 0] ∧ v.info.index = 0 ∧
        v.AsWritten t r [0, 0] node := by
  let text : Text := "é[[a::[[b::c||d]]]]".toList
  let inner : Tag := ⟨.inline, ⟨['b'], [[['c'], ['d']]]⟩, 7, 18⟩
  let outer : Tag := ⟨.inline, ⟨['a'], [["[[b::c||d]]".toList]]⟩, 2, 20⟩
  let t : Template :=
    ⟨[text], .single, .standard, ⟨20, .tree outer (.tree inner .nil)⟩, [], by decide +kernel⟩
  have ht : read [text] .single .standard = .ok t := read_eq_ok.2 ⟨rfl, rfl, rfl, rfl⟩
  have hpasses : 0 < (t.runWith (Renderer.delayed 1).responder.recorded
      (.start (Renderer.delayed 1).responder ())).intermediate.length := by
    decide +kernel
  have hnode : t.at? [0, 0] = some (Outline.node inner 1 []) := rfl
  obtain ⟨hvisits, hwatch⟩ := (leaves_as_written (Renderer.delayed 1) () ht).2 [0, 0] _ (by simp)
    hnode rfl
  obtain ⟨v, hv, hpath, hindex⟩ := hwatch 0 hpasses
  refine ⟨t, _, ht, hnode, rfl, v, hv, hpath, by omega, hvisits v hv hpath⟩

end Template

end TagMarkup
