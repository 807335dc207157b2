import TagMarkup.Proofs.Patchwork.Work
import TagMarkup.Rendering.Run

/-! The tags of a template in a patchwork. They have paths, and the path of a tag says which tags of
the template are around it; the tags of answers have none. -/

namespace TagMarkup

/-- The path of a tag of the template. -/
def RegionKind.path? : RegionKind → Option Path
  | .tag path? => path?
  | .group => none

namespace Patchwork

variable {d : Delimiters}

/-- The region itself, if it is a tag of the template. -/
def own (kind : RegionKind) (inner : Patchwork) : List (Path × Patchwork) :=
  (kind.path?.map fun path => (path, inner)).toList

/-- The tags of the template, each behind those inside it, with what they hold. -/
def tags : Patchwork → List (Path × Patchwork)
  | plain _ => []
  | patch _ kind inner rest => inner.tags ++ (own kind inner ++ rest.tags)

def paths (p : Patchwork) : List Path := p.tags.map Prod.fst

@[simp] theorem tags_plain (t : Text) : (plain t).tags = [] := rfl

@[simp] theorem tags_append (p q : Patchwork) : (p ++ q).tags = p.tags ++ q.tags := by
  induction p with
  | plain t => cases q <;> rfl
  | patch lead kind inner rest _ ih => simp only [patch_append, tags, ih, List.append_assoc]

@[simp] theorem tags_one (kind : RegionKind) (inner : Patchwork) :
    (one kind inner).tags = inner.tags ++ own kind inner := by
  simp [one, tags]

@[simp] theorem own_tag (path : Path) (inner : Patchwork) :
    own (.tag (some path)) inner = [(path, inner)] := rfl

theorem own_of_path?_eq_none {kind : RegionKind} (h : kind.path? = none) (inner : Patchwork) :
    own kind inner = [] := by
  simp [own, h]

theorem tags_other (lead : Text) {kind : RegionKind} {inner : Patchwork} (hk : kind.path? = none)
    (hi : inner.tags = []) (rest : Patchwork) : (patch lead kind inner rest).tags = rest.tags := by
  rw [tags, hi, own_of_path?_eq_none hk]
  rfl

theorem mem_paths {p : Patchwork} {path : Path} : path ∈ p.paths ↔ ∃ x, (path, x) ∈ p.tags := by
  simp [paths]

theorem paths_tag (lead : Text) (path : Path) (inner rest : Patchwork) :
    (patch lead (.tag (some path)) inner rest).paths = inner.paths ++ ([path] ++ rest.paths) := by
  simp [paths, tags]

theorem tags_of_depicts {n : Nat} {p : Patchwork} {tags : Forest Tag} (h : Depicts d n p tags) :
    p.tags = [] := by
  induction h with
  | plain => rfl
  | patch _ _ _ _ _ ihi ihr => simp [Patchwork.tags, own, RegionKind.path?, ihi, ihr]

@[simp] theorem tags_ofAnswer (d : Delimiters) (text : Text) : (ofAnswer d text).tags = [] := by
  rcases ofAnswer_cases d text with h | ⟨p, tags, hp, -, h | h⟩
  · rw [h]
    rfl
  · rw [h]
    exact tags_of_depicts hp
  · rw [h, tags_one, tags_of_depicts hp]
    rfl

/-- The regions of a patchwork as the template's tags, with their paths. -/
def label (around : Path) (index : Nat) : Patchwork → Patchwork
  | plain t => plain t
  | patch lead _ inner rest =>
    patch lead (.tag (some (around ++ [index]))) (inner.label (around ++ [index]) 0)
      (rest.label around (index + 1))

theorem text_label (around : Path) (index : Nat) (p : Patchwork) :
    (p.label around index).text = p.text := by
  induction p generalizing around index with
  | plain t => rfl
  | patch lead kind inner rest ihi ihr => simp only [label, text_patch, ihi, ihr]

theorem lead_label (around : Path) (index : Nat) (p : Patchwork) :
    (p.label around index).lead = p.lead := by
  cases p <;> rfl

theorem agenda_label {n : Nat} {p : Patchwork} {tags : Forest Tag} (h : Depicts d n p tags)
    (around : Path) (index : Nat) :
    (p.label around index).agenda n = Agenda.ofTags around index tags := by
  induction h generalizing around index with
  | plain => rfl
  | patch start stop _ _ _ ihi ihr =>
    simp only [Agenda.ofTags, label, agenda, text_label, ← start, ← stop, ihi, ihr]

theorem solid_label {n : Nat} {p : Patchwork} {tags : Forest Tag} (h : Depicts d n p tags)
    (around : Path) (index : Nat) : (p.label around index).Solid := by
  induction h generalizing around index with
  | plain => trivial
  | patch _ _ head _ _ ihi ihr =>
    exact ⟨by simpa [Holds, lead_label] using head.ne_nil, ihi _ _, ihr _ _⟩

/-- The tags of the template are inside each other as their paths say, when `around` is the path of
the tag around them and the first one is not in front of place `lo` in it. -/
inductive Rooted : Path → Nat → Patchwork → Prop
  | plain (around : Path) (lo : Nat) (t : Text) : Rooted around lo (plain t)
  | tag {around : Path} {lo : Nat} (lead : Text) {inner rest : Patchwork} (i : Nat) (le : lo ≤ i)
    (inside : Rooted (around ++ [i]) 0 inner) (after : Rooted around (i + 1) rest) :
    Rooted around lo (patch lead (.tag (some (around ++ [i]))) inner rest)
  | other {around : Path} {lo : Nat} (lead : Text) {kind : RegionKind} {inner rest : Patchwork}
    (pathless : kind.path? = none) (inside : inner.tags = []) (after : Rooted around lo rest) :
    Rooted around lo (patch lead kind inner rest)

section Paths

variable {around path : Path} {lo : Nat} {p q x : Patchwork}

theorem Rooted.mono {hi : Nat} (h : Rooted around hi p) (hlo : lo ≤ hi) : Rooted around lo p := by
  induction h with
  | plain around hi t => exact .plain around lo t
  | tag lead i le inside after _ _ => exact .tag lead i (Nat.le_trans hlo le) inside after
  | other lead pathless inside _ ih => exact .other lead pathless inside (ih hlo)

theorem Rooted.append_of_tags_eq_nil (hq : Rooted around lo q) (hp : p.tags = []) :
    Rooted around lo (p ++ q) := by
  induction p with
  | plain t =>
    cases hq with
    | plain => exact .plain _ _ _
    | tag lead i le inside after => exact .tag _ i le inside after
    | other lead pathless inside after => exact .other _ pathless inside after
  | patch lead kind inner rest _ ih =>
    simp only [tags, List.append_eq_nil_iff] at hp
    obtain ⟨hinner, hown, hrest⟩ := hp
    refine .other lead ?_ hinner (ih hrest)
    simpa [own] using hown

/-- A path goes through the tag around and, in it, to a tag that is not in front of the first. -/
theorem Rooted.mem_tags (h : Rooted around lo p) (hx : (path, x) ∈ p.tags) :
    ∃ i more, lo ≤ i ∧ path = around ++ i :: more := by
  induction h with
  | plain => simp at hx
  | @tag around lo lead inner rest i le _ _ ihi ihr =>
    simp only [tags, own_tag, List.mem_append, List.mem_singleton] at hx
    rcases hx with hx | hx | hx
    · obtain ⟨j, more, -, rfl⟩ := ihi hx
      exact ⟨i, j :: more, le, by simp⟩
    · cases hx
      exact ⟨i, [], le, rfl⟩
    · obtain ⟨j, more, hj, rfl⟩ := ihr hx
      exact ⟨j, more, by omega, rfl⟩
  | other lead pathless inside _ ih =>
    rw [tags_other lead pathless inside] at hx
    exact ih hx

theorem Rooted.mem_paths (h : Rooted around lo p) (hp : path ∈ p.paths) :
    ∃ i more, lo ≤ i ∧ path = around ++ i :: more := by
  obtain ⟨x, hx⟩ := Patchwork.mem_paths.1 hp
  exact h.mem_tags hx

/-- No tag stands in front of one that it is inside of, nor is there a second one with its path. -/
theorem Rooted.pairwise (h : Rooted around lo p) : p.paths.Pairwise fun a b => ¬ a <+: b := by
  induction h with
  | plain => exact List.Pairwise.nil
  | @tag around lo lead inner rest i le inside after ihi ihr =>
    have hin (a : Path) (ha : a ∈ inner.paths) : ∃ j more, a = around ++ i :: j :: more := by
      obtain ⟨j, more, -, rfl⟩ := inside.mem_paths ha
      exact ⟨j, more, by simp⟩
    have hbehind (b : Path) (hb : b ∈ rest.paths) : ¬ around ++ [i] <+: b := by
      obtain ⟨j, more, hj, rfl⟩ := after.mem_paths hb
      intro hp
      have := List.prefix_append_right_inj _ |>.1 hp
      simp at this
      omega
    rw [paths_tag, List.pairwise_append, List.pairwise_append]
    refine ⟨ihi, ⟨List.pairwise_singleton _ _, ihr, ?_⟩, ?_⟩
    · intro a ha b hb
      rw [List.mem_singleton.1 ha]
      exact hbehind b hb
    · intro a ha b hb hab
      obtain ⟨j, more, rfl⟩ := hin a ha
      rcases List.mem_append.1 hb with hb | hb
      · rw [List.mem_singleton.1 hb] at hab
        have := hab.length_le
        simp at this
      · refine hbehind b hb (List.IsPrefix.trans ?_ hab)
        exact ⟨j :: more, by simp⟩
  | other lead pathless inside _ ih =>
    rwa [paths, tags_other lead pathless inside]

/-- The tags around a tag are there as long as it is, and it is inside them. -/
theorem Rooted.around_mem {a b : Path} (h : Rooted around lo p) (hb : b ∈ p.paths) (hab : a <+: b)
    (ha : around.length < a.length) : ∃ x, (a, x) ∈ p.tags ∧ (b = a ∨ b ∈ x.paths) := by
  induction h with
  | plain => simp [paths] at hb
  | @tag around lo lead inner rest i le inside after ihi ihr =>
    have hmem :
        (around ++ [i], inner) ∈ (patch lead (.tag (some (around ++ [i]))) inner rest).tags := by
      simp [tags]
    -- the tag itself is the only one with a path of this length that begins like its own
    have hself (hl : a.length = around.length + 1) (ht : around ++ [i] <+: b) : a = around ++ [i] :=
      (List.prefix_of_prefix_length_le hab ht (by simp [hl])).eq_of_length (by simp [hl])
    rw [paths_tag, List.mem_append, List.mem_append, List.mem_singleton] at hb
    rcases hb with hb | rfl | hb
    · obtain ⟨j, more, -, rfl⟩ := inside.mem_paths hb
      by_cases hl : a.length = around.length + 1
      · obtain rfl := hself hl (List.prefix_append _ _)
        exact ⟨inner, hmem, .inr hb⟩
      · obtain ⟨x, hx, hbx⟩ := ihi hb (by simp; omega)
        exact ⟨x, by simp [tags, hx], hbx⟩
    · have := hab.length_le
      obtain rfl := hself (by simp at this; omega) List.prefix_rfl
      exact ⟨inner, hmem, .inl rfl⟩
    · obtain ⟨x, hx, hbx⟩ := ihr hb ha
      exact ⟨x, by simp [tags, hx], hbx⟩
  | other lead pathless inside _ ih =>
    rw [paths, tags_other lead pathless inside] at hb
    rw [tags_other lead pathless inside]
    exact ih hb ha

end Paths

/-- A region of a text that begins at the offset `base` holds the tag, which has the tags `inside`
in it. -/
structure HoldsTag (d : Delimiters) (base : Nat) (text : Text) (tag : Tag) (inside : Forest Tag)
    (x : Patchwork) : Prop where
  head : Headed d tag.kind tag.call.key x.lead
  isPlain : inside = .nil → x.isPlain = true
  part : ∃ front behind, text = front ++ (x.text ++ behind) ∧ tag.start = base + front.bytes ∧
    tag.stop = tag.start + x.text.bytes

theorem HoldsTag.embed {n : Nat} {t : Text} {tag : Tag} {inside : Forest Tag} {x : Patchwork}
    (front behind : Text) (h : HoldsTag d (n + front.bytes) t tag inside x) :
    HoldsTag d n (front ++ (t ++ behind)) tag inside x := by
  obtain ⟨hhead, hplain, front', behind', rfl, hstart, hstop⟩ := h
  refine ⟨hhead, hplain, front ++ front', behind' ++ behind, by simp, ?_, hstop⟩
  rw [hstart, Text.bytes_append, Nat.add_assoc]

section Labels

variable {n : Nat} {p : Patchwork} {tags : Forest Tag}

theorem rooted_label (h : Depicts d n p tags) (around : Path) (index : Nat) :
    Rooted around index (p.label around index) := by
  induction h generalizing around index with
  | plain => exact .plain _ _ _
  | patch _ _ _ _ _ ihi ihr => exact .tag _ index (Nat.le_refl _) (ihi _ _) (ihr _ _)

/-- A tag of the template is the one that its path leads to in the outline. -/
theorem mem_tags_label (h : Depicts d n p tags) {around path : Path} {index : Nat} {x : Patchwork}
    (hx : (path, x) ∈ (p.label around index).tags) :
    ∃ i more tag inside, path = around ++ (index + i) :: more ∧
      tags.find? i more = some (tag, inside) ∧ HoldsTag d n p.text tag inside x := by
  induction h generalizing around index with
  | plain => simp [label] at hx
  | @patch base before inner rest tag inside after start stop head hinner _ ihi ihr =>
    simp only [label, Patchwork.tags, own_tag, List.mem_append, List.mem_singleton] at hx
    rcases hx with hx | hx | hx
    · obtain ⟨i, more, tag', inside', rfl, hfind, hholds⟩ := ihi hx
      rw [start] at hholds
      exact ⟨0, i :: more, tag', inside', by simp, hfind, hholds.embed before rest.text⟩
    · cases hx
      refine ⟨0, [], tag, inside, by simp, rfl, by rwa [lead_label], ?_, before, rest.text, ?_,
        start, ?_⟩
      · rintro rfl
        cases hinner
        rfl
      · rw [text_label, text_patch]
      · rw [text_label, stop]
    · obtain ⟨i, more, tag', inside', rfl, hfind, hholds⟩ := ihr hx
      have hbase : tag.stop = base + (before ++ inner.text).bytes := by
        rw [stop, start, Text.bytes_append, Nat.add_assoc]
      rw [hbase] at hholds
      refine ⟨i + 1, more, tag', inside', by rw [Nat.add_assoc, Nat.add_comm 1], hfind, ?_⟩
      simpa using hholds.embed (before ++ inner.text) []

theorem mem_paths_label (h : Depicts d n p tags) (around : Path) (index : Nat) {i : Nat}
    {more : Path} {found : Tag × Forest Tag} (hf : tags.find? i more = some found) :
    around ++ (index + i) :: more ∈ (p.label around index).paths := by
  induction h generalizing around index i more with
  | plain => cases hf
  | patch _ _ _ _ _ ihi ihr =>
    rw [label, paths_tag, List.mem_append, List.mem_append, List.mem_singleton]
    cases i with
    | succ i =>
      have := ihr around (index + 1) hf
      rw [Nat.add_assoc, Nat.add_comm 1] at this
      exact .inr (.inr this)
    | zero =>
      cases more with
      | nil => exact .inr (.inl rfl)
      | cons j more =>
        have := ihi (around ++ [index]) 0 hf
        exact .inl (by simpa using this)

end Labels

end Patchwork

end TagMarkup

namespace TagMarkup.Template

open Patchwork

/-- A template's text as a patchwork of its tags. -/
theorem exists_patchwork (t : Template) : ∃ p, p.text = t.text ∧
    Depicts t.delimiters 0 p t.outline.tags ∧ (p.label [] 0).agenda 0 = t.scene.agenda := by
  obtain ⟨p, -, htext, hdepicts⟩ := read_of_outline t.outline_eq
  exact ⟨p, htext, hdepicts, agenda_label hdepicts [] 0⟩

end TagMarkup.Template
