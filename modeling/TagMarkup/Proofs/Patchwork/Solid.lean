import TagMarkup.Proofs.Patchwork.Reading

/-! Patchworks without empty regions: a tag begins with text of its own, and a group has a region in
it. Reading makes such patchworks. -/

namespace TagMarkup.Patchwork

variable {d : Delimiters}

/-- A region of the kind cannot be empty when it holds `inner`. -/
def Holds : RegionKind → Patchwork → Prop
  | .tag _, inner => inner.lead ≠ []
  | .group, inner => inner.isPlain = false

/-- No region is empty. -/
def Solid : Patchwork → Prop
  | plain _ => True
  | patch _ kind inner rest => Holds kind inner ∧ inner.Solid ∧ rest.Solid

@[simp] theorem solid_plain (t : Text) : (plain t).Solid := trivial

@[simp] theorem solid_append {p q : Patchwork} : (p ++ q).Solid ↔ p.Solid ∧ q.Solid := by
  induction p with
  | plain t => cases q <;> simp [Solid]
  | patch before kind inner rest _ ih =>
    simp only [patch_append, Solid, ih, and_assoc]

theorem Solid.one {kind : RegionKind} {inner : Patchwork} (hk : Holds kind inner)
    (hi : inner.Solid) : (one kind inner).Solid := ⟨hk, hi, trivial⟩

theorem text_ne_nil_of_lead {p : Patchwork} (h : p.lead ≠ []) : p.text ≠ [] := by
  intro ht
  have hp := p.lead_isPrefix_text
  rw [ht] at hp
  exact h (List.prefix_nil.1 hp)

theorem Holds.text_ne_nil {kind : RegionKind} {inner : Patchwork} (hk : Holds kind inner)
    (hi : inner.Solid) : inner.text ≠ [] := by
  induction inner generalizing kind with
  | plain t =>
    cases kind with
    | tag path? => exact text_ne_nil_of_lead hk
    | group => cases hk
  | patch lead kind' inner rest ihi _ =>
    have := ihi hi.1 hi.2.1
    simp [this]

theorem Solid.start_lt_stop {p : Patchwork} (h : p.Solid) (base : Nat) :
    ∀ region ∈ (p.agenda base).toList, region.start < region.stop := by
  induction p generalizing base with
  | plain t => simp [Forest.toList]
  | patch lead kind inner rest ihi ihr =>
    obtain ⟨hk, hi, hr⟩ := h
    have hpos := Text.bytes_pos.2 (hk.text_ne_nil hi)
    simp only [agenda, Forest.toList, List.mem_cons, List.mem_append]
    rintro region (rfl | hmem | hmem)
    · show base + lead.bytes < base + lead.bytes + inner.text.bytes
      omega
    · exact ihi hi _ region hmem
    · exact ihr hr _ region hmem

theorem solid_of_depicts {n : Nat} {p : Patchwork} {tags : Forest Tag} (h : Depicts d n p tags) :
    p.Solid := by
  induction h with
  | plain => trivial
  | patch _ _ head _ _ ihi ihr => exact ⟨head.ne_nil, ihi, ihr⟩

end TagMarkup.Patchwork
