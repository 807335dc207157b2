import Mathlib.Logic.ExistsUnique
import TagMarkup.Proofs.Markup.Joining
import TagMarkup.Proofs.Text.Boundary

/-! Where the values stand that a text is split into. The first one stands at the front, and each
of the others behind the separator that follows the value before it. So the values are parts of the
text, one behind another (`Groups.excerpts_parts`), and a text that is kept in one piece is in one
of them (`Groups.covers_kept`, `Groups.covers_append`). -/

namespace TagMarkup

/-- A part of a text, and the byte offset at which it stands there. -/
structure Excerpt where
  start : Nat
  text : Text
  deriving DecidableEq, Repr

namespace Excerpt

def stop (e : Excerpt) : Nat := e.start + e.text.bytes

/-- The excerpt `p` is a part of `e`, at the place where it stands. -/
def Contains (e p : Excerpt) : Prop :=
  ∃ front behind, e.text = front ++ (p.text ++ behind) ∧ p.start = e.start + front.bytes

/-- The excerpts are parts of `e`, one behind another. -/
structure Parts (e : Excerpt) (ps : List Excerpt) : Prop where
  contains : ∀ p ∈ ps, e.Contains p
  ordered : ps.Pairwise fun p q => p.stop ≤ q.start

/-- One of the excerpts reaches from an offset to another one. -/
def Covers (ps : List Excerpt) (start stop : Nat) : Prop :=
  ∃ p ∈ ps, p.start ≤ start ∧ stop ≤ p.stop

namespace Contains

variable {e p q : Excerpt}

theorem trans (h : e.Contains p) (h' : p.Contains q) : e.Contains q := by
  obtain ⟨front, behind, htext, hstart⟩ := h
  obtain ⟨front', behind', htext', hstart'⟩ := h'
  refine ⟨front ++ front', behind' ++ behind, by simp [htext, htext'], ?_⟩
  rw [hstart', hstart, Text.bytes_append, Nat.add_assoc]

theorem within (h : e.Contains p) : e.start ≤ p.start ∧ p.stop ≤ e.stop := by
  obtain ⟨front, behind, htext, hstart⟩ := h
  simp only [stop, htext, Text.bytes_append]
  omega

/-- A part that stands within another one is a part of it. -/
theorem of_within (hp : e.Contains p) (hq : e.Contains q) (hstart : p.start ≤ q.start)
    (hstop : q.stop ≤ p.stop) : p.Contains q := by
  obtain ⟨front, behind, htext, hp⟩ := hp
  obtain ⟨front', behind', htext', hq⟩ := hq
  simp only [stop] at hstop
  rw [htext] at htext'
  obtain ⟨between, rfl, hrest⟩ := Text.exists_append_of_le htext' (by omega)
  rw [Text.bytes_append] at hq
  rw [← List.append_assoc] at hrest
  obtain ⟨more, hmore, -⟩ := Text.exists_append_of_le hrest.symm (by
    rw [Text.bytes_append]
    omega)
  exact ⟨between, more, by rw [hmore, List.append_assoc], by omega⟩

theorem slice? {t : Text} (h : Contains ⟨0, t⟩ p) : t.slice? p.start p.stop = some p.text := by
  obtain ⟨front, behind, htext, hstart⟩ := h
  rw [Text.slice?_eq_some]
  simp only [Nat.zero_add] at hstart
  exact ⟨front, behind, htext, hstart.symm, by rw [stop, hstart]⟩

end Contains

variable {e q : Excerpt} {ps : List Excerpt} {f : Excerpt → List Excerpt} {start : Nat}
  {t v more : Text}

theorem contains_behind (start : Nat) (t more : Text) :
    Contains ⟨start, t ++ more⟩ ⟨start + t.bytes, more⟩ :=
  ⟨t, [], by rw [List.append_nil], rfl⟩

/-- A part at the front reaches over a text in front of it. -/
theorem Parts.extend (h : Parts ⟨start + t.bytes, more⟩ (⟨start + t.bytes, v⟩ :: ps)) :
    Parts ⟨start, t ++ more⟩ (⟨start, t ++ v⟩ :: ps) := by
  obtain ⟨hcontains, hordered⟩ := h
  obtain ⟨hfirst, hrest⟩ := List.forall_mem_cons.1 hcontains
  obtain ⟨hbehind, hordered⟩ := List.pairwise_cons.1 hordered
  constructor
  · have hwhole := contains_behind start t more
    refine List.forall_mem_cons.2 ⟨?_, fun p hp => hwhole.trans (hrest p hp)⟩
    obtain ⟨front, behind, htext, hstart⟩ := hfirst
    obtain rfl : front = [] := Text.bytes_eq_zero.1 (Nat.left_eq_add.1 hstart)
    exact ⟨[], behind, by simpa using htext, rfl⟩
  · refine List.pairwise_cons.2 ⟨fun p hp => ?_, hordered⟩
    have hle := hbehind p hp
    simpa [stop, Nat.add_assoc] using hle

/-- There is a part with nothing in it at the front. -/
theorem Parts.cons_nil (h : Parts ⟨start + t.bytes, more⟩ ps) :
    Parts ⟨start, t ++ more⟩ (⟨start, []⟩ :: ps) := by
  constructor
  · refine List.forall_mem_cons.2 ⟨⟨[], t ++ more, rfl, rfl⟩, fun p hp => ?_⟩
    exact (contains_behind start t more).trans (h.contains p hp)
  · refine List.pairwise_cons.2 ⟨fun p hp => ?_, h.ordered⟩
    exact ((contains_behind start t more).trans (h.contains p hp)).within.1

/-- Parts of parts are parts of the whole. -/
theorem Parts.flatMap (h : e.Parts ps) (hf : ∀ p ∈ ps, p.Parts (f p)) :
    e.Parts (ps.flatMap f) := by
  constructor
  · intro q hq
    obtain ⟨p, hp, hq⟩ := List.mem_flatMap.1 hq
    exact (h.contains p hp).trans ((hf p hp).contains q hq)
  · refine List.pairwise_flatMap.2 ⟨fun p hp => (hf p hp).ordered, ?_⟩
    refine h.ordered.imp_of_mem fun {p p'} hp hp' hle q hq q' hq' => ?_
    have hin := ((hf p hp).contains q hq).within
    have hin' := ((hf p' hp').contains q' hq').within
    omega

/-- Of parts that stand one behind another, only one contains what the parts cover. -/
theorem Parts.existsUnique_contains (h : e.Parts ps) (hq : e.Contains q) (hne : q.text ≠ [])
    (hcovers : Covers ps q.start q.stop) :
    ∃! i : Nat, ∃ p : Excerpt, ps[i]? = some p ∧ p.Contains q := by
  obtain ⟨p, hmem, hstart, hstop⟩ := hcovers
  obtain ⟨i, hi⟩ := List.mem_iff_getElem?.1 hmem
  refine ⟨i, ⟨p, hi, (h.contains p hmem).of_within hq hstart hstop⟩, ?_⟩
  rintro j ⟨other, hj, hother⟩
  have hin := hother.within
  have hpos := Text.bytes_pos.2 hne
  have hlt : q.start < q.stop := Nat.lt_add_of_pos_right hpos
  obtain ⟨hilt, rfl⟩ := List.getElem?_eq_some_iff.1 hi
  obtain ⟨hjlt, rfl⟩ := List.getElem?_eq_some_iff.1 hj
  rcases Nat.lt_trichotomy i j with hij | rfl | hij
  · have hle := List.pairwise_iff_getElem.1 h.ordered i j hilt hjlt hij
    omega
  · rfl
  · have hle := List.pairwise_iff_getElem.1 h.ordered j i hjlt hilt hij
    omega

end Excerpt

namespace Groups

/-- Values from an offset on, with a gap behind each of them. -/
def valueExcerpts (gap : Nat) : Nat → List Text → List Excerpt
  | _, [] => []
  | start, v :: vs => ⟨start, v⟩ :: valueExcerpts gap (start + v.bytes + gap) vs

/-- The values of groups, where they stand if the groups are joined with the separators `mark` and
this stands at an offset. -/
def excerpts (mark : Level → Text) : Nat → List (List Text) → List Excerpt
  | _, [] => []
  | start, vs :: gs =>
    valueExcerpts (mark .value).bytes start vs ++
      excerpts mark (start + Text.bytes ((mark .value).intercalate vs) + (mark .group).bytes) gs

variable {mark : Level → Text} {start a b : Nat} {qs : List Piece}

theorem map_text_excerpts (mark : Level → Text) (start : Nat) (gs : List (List Text)) :
    (excerpts mark start gs).map Excerpt.text = gs.flatten := by
  have hvalues (gap start : Nat) (vs : List Text) :
      (valueExcerpts gap start vs).map Excerpt.text = vs := by
    induction vs generalizing start with
    | nil => rfl
    | cons v vs ih => rw [valueExcerpts, List.map_cons, ih]
  induction gs generalizing start with
  | nil => rfl
  | cons vs gs ih => rw [excerpts, List.map_append, hvalues, ih, List.flatten_cons]

/-- The values behind the first one, which ends at an offset. -/
def excerptsBehind (mark : Level → Text) (stop : Nat) (g : Groups) : List Excerpt :=
  valueExcerpts (mark .value).bytes (stop + (mark .value).bytes) g.values ++
    excerpts mark (stop + Text.bytes (g.values.flatMap (mark .value ++ ·)) + (mark .group).bytes)
      g.groups

theorem excerpts_toList (mark : Level → Text) (start : Nat) (g : Groups) :
    excerpts mark start g.toList =
      ⟨start, g.value⟩ :: g.excerptsBehind mark (start + g.value.bytes) := by
  rw [toList, excerpts, valueExcerpts, Text.intercalate_cons, Text.bytes_append, ← Nat.add_assoc]
  rfl

theorem excerpts_cut (mark : Level → Text) (start : Nat) (level : Level) (ps : List Piece) :
    excerpts mark start (ofPieces (.cut level :: ps)).toList =
      ⟨start, []⟩ :: excerpts mark (start + (mark level).bytes) (ofPieces ps).toList := by
  rw [excerpts_toList]
  cases level with
  | value =>
    rw [excerpts_toList]
    simp [excerptsBehind, valueExcerpts, Nat.add_assoc]
  | group => simp [excerptsBehind, valueExcerpts]

/-- Text that is kept in front is part of the first value. -/
theorem exists_excerpts_kept (mark : Level → Text) (start : Nat) (t : Text) (ps : List Piece) :
    ∃ v rest, excerpts mark (start + t.bytes) (ofPieces ps).toList =
        ⟨start + t.bytes, v⟩ :: rest ∧
      excerpts mark start (ofPieces (.kept t :: ps)).toList = ⟨start, t ++ v⟩ :: rest := by
  refine ⟨(ofPieces ps).value, _, excerpts_toList _ _ _, ?_⟩
  rw [excerpts_toList]
  simp [excerptsBehind, Nat.add_assoc]

/-- The values that pieces make are parts of the text that the pieces are cut out of. -/
theorem excerpts_parts (mark : Level → Text) (start : Nat) (ps : List Piece) :
    Excerpt.Parts ⟨start, ps.flatMap (Piece.text mark)⟩
      (excerpts mark start (ofPieces ps).toList) := by
  induction ps generalizing start with
  | nil =>
    refine ⟨fun p hp => ?_, List.pairwise_singleton _ _⟩
    rw [List.mem_singleton.1 hp]
    exact ⟨[], [], rfl, rfl⟩
  | cons p ps ih =>
    rw [List.flatMap_cons]
    cases p with
    | kept t =>
      obtain ⟨v, rest, hrest, hall⟩ := exists_excerpts_kept mark start t ps
      have hparts := ih (start + t.bytes)
      rw [hrest] at hparts
      rw [hall]
      exact hparts.extend
    | cut level =>
      rw [excerpts_cut]
      exact (ih (start + (mark level).bytes)).cons_nil

/-- What the values of pieces cover, they cover with other pieces in front of these. -/
theorem covers_append (ps : List Piece)
    (h : Excerpt.Covers (excerpts mark (start + Text.bytes (ps.flatMap (Piece.text mark)))
      (ofPieces qs).toList) a b) :
    Excerpt.Covers (excerpts mark start (ofPieces (ps ++ qs)).toList) a b := by
  induction ps generalizing start with
  | nil => exact h
  | cons p ps ih =>
    rw [List.flatMap_cons, Text.bytes_append, ← Nat.add_assoc] at h
    obtain ⟨e, he, hstart, hstop⟩ := ih h
    cases p with
    | kept t =>
      obtain ⟨v, rest, hrest, hall⟩ := exists_excerpts_kept mark start t (ps ++ qs)
      rw [List.cons_append, hall]
      simp only [Piece.text] at he
      rw [hrest] at he
      rcases List.mem_cons.1 he with rfl | he
      · refine ⟨_, List.mem_cons_self, ?_, ?_⟩
        · exact Nat.le_trans (Nat.le_add_right _ _) hstart
        · simpa [Excerpt.stop, Nat.add_assoc] using hstop
      · exact ⟨e, List.mem_cons_of_mem _ he, hstart, hstop⟩
    | cut level =>
      rw [List.cons_append, excerpts_cut]
      exact ⟨e, List.mem_cons_of_mem _ he, hstart, hstop⟩

/-- A text that is kept is part of one value. -/
theorem covers_kept (mark : Level → Text) (start : Nat) (t : Text) (ps : List Piece) :
    Excerpt.Covers (excerpts mark start (ofPieces (.kept t :: ps)).toList) start
      (start + t.bytes) := by
  obtain ⟨v, rest, -, hall⟩ := exists_excerpts_kept mark start t ps
  rw [hall]
  refine ⟨_, List.mem_cons_self, Nat.le_refl _, ?_⟩
  simp [Excerpt.stop]

end Groups

end TagMarkup
