import TagMarkup.Proofs.Lexing.Tiling
import TagMarkup.Proofs.Markup.Outline
import TagMarkup.Proofs.Markup.Single

/-! Values joined with the separators that set them apart. What a text is split into makes up the
text again, with a nested tag in it as it is written (`join_splitGroups`), and so do the values of a
header make up what stands between its first separator and its closer. -/

namespace TagMarkup

namespace Text

theorem intercalate_cons (sep t : Text) (ts : List Text) :
    sep.intercalate (t :: ts) = t ++ ts.flatMap (sep ++ ·) := by
  induction ts generalizing t with
  | nil => simp
  | cons u ts ih => rw [List.intercalate_cons_cons, ih]; simp

end Text

/-- A piece as it was cut out of a text with the separators `mark`. -/
def Piece.text (mark : Level → Text) : Piece → Text
  | .kept t => t
  | .cut level => mark level

namespace Groups

/-- What follows the first value when the groups are joined and `f` is done to each value. -/
def behind (d : Delimiters) (f : Text → Text) (g : Groups) : Text :=
  g.values.flatMap (fun v => d.subSep ++ f v) ++
    g.groups.flatMap fun vs => d.sep ++ d.subSep.intercalate (vs.map f)

theorem join_toList (d : Delimiters) (f : Text → Text) (g : Groups) :
    join d.sep d.subSep (g.toList.map (·.map f)) = f g.value ++ g.behind d f := by
  simp [join, toList, behind, Text.intercalate_cons, List.flatMap_map]

theorem behind_cut (d : Delimiters) (f : Text → Text) (level : Level) (ps : List Piece) :
    (ofPieces (.cut level :: ps)).behind d f =
      d.sepOf level ++ (f (ofPieces ps).value ++ (ofPieces ps).behind d f) := by
  cases level <;> simp [behind, toList, Delimiters.sepOf, Text.intercalate_cons, List.flatMap_map]

theorem join_cons (group value v : Text) (vs : List Text) (gs : List (List Text)) :
    join group value ((v :: vs) :: gs) =
      v ++ (vs.flatMap (value ++ ·) ++ gs.flatMap fun vs => group ++ value.intercalate vs) := by
  simp [join, Text.intercalate_cons, List.flatMap_map]

/-- Joined again, pieces are what they were cut out of. -/
theorem join_ofPieces (mark : Level → Text) (ps : List Piece) :
    join (mark .group) (mark .value) (ofPieces ps).toList = ps.flatMap (Piece.text mark) := by
  induction ps with
  | nil => rfl
  | cons p ps ih =>
    rw [List.flatMap_cons, ← ih, toList, toList, join_cons, join_cons]
    cases p with
    | kept t => simp [Piece.text]
    | cut level => cases level <;> simp [Piece.text, toList, Text.intercalate_cons]

end Groups

/-- The texts are the separators of the cuts. For a separator that is missing there may be any
text. -/
def Cuts.MarkedBy (c : Cuts) (mark : Level → Text) : Prop :=
  ∀ level sep, c.mark? level = some sep → mark level = sep

theorem Cuts.markedBy_getD (c : Cuts) (other : Level → Text) :
    c.MarkedBy fun level => (c.mark? level).getD (other level) := by
  intro level sep hsep
  simp only [hsep, Option.getD_some]

theorem Cuts.ofDelimiters_markedBy (d : Delimiters) : (ofDelimiters d).MarkedBy d.sepOf := by
  intro level sep h
  cases level <;> exact Option.some.inj h

section Cuts

variable {c : Cuts} {mark : Level → Text}

theorem Cuts.pieces_text (h : c.MarkedBy mark) (t : Text) :
    (c.pieces t).flatMap (Piece.text mark) = t := by
  fun_induction Cuts.pieces c t with
  | case1 t level rest hat ih =>
    obtain ⟨sep, hsep, -, rfl⟩ := Cuts.at?_eq_some hat
    rw [List.flatMap_cons, ih, Piece.text, h level sep hsep]
  | case2 => rfl
  | case3 x rest hat ih =>
    rw [List.flatMap_cons, ih]
    rfl

theorem topLevelPieces_text (h : c.MarkedBy mark) (d : Delimiters) (t : Text) :
    (topLevelPieces d c t).flatMap (Piece.text mark) = t := by
  unfold topLevelPieces
  split
  · next tokens htokens =>
    have htoken (token : Token) :
        (if token.depth = 0 ∧ token.kind = .text then c.pieces token.text
          else [.kept token.text]).flatMap (Piece.text mark) = token.text := by
      split
      · exact Cuts.pieces_text h token.text
      · exact List.append_nil _
    rw [List.flatMap_assoc]
    simp only [htoken]
    rw [List.flatMap_def, ← (lexing_of_tokenize htokens).1]
    exact lexemes_of_tokenize htokens
  · exact Cuts.pieces_text h t

/-- The groups that a text is split into make up the text. -/
theorem join_splitGroups (h : c.MarkedBy mark) (d : Delimiters) (t : Text) :
    Groups.join (mark .group) (mark .value) (splitGroups d c t) = t := by
  rw [splitGroups, Groups.join_ofPieces, topLevelPieces_text h]

end Cuts

theorem join_templateGroups (d : Delimiters) (t : Text) :
    Groups.join d.sep d.subSep (templateGroups d t) = t :=
  join_splitGroups (Cuts.ofDelimiters_markedBy d) d t

namespace Markup

variable {d : Delimiters} {header : Markup}

theorem pieces_text (m : Markup) : (m.pieces d).flatMap (Piece.text d.sepOf) = m.source d := by
  induction m with
  | done => rfl
  | text t rest ih | sep level rest ih => simp [pieces, source, Piece.text, ih]
  | inline key header rest _ ih => simp [pieces, source, Piece.text, ih]
  | block key header body endKey rest _ _ ih => simp [pieces, source, Piece.text, ih]

/-- The values of a header make up the text behind its first separator. -/
theorem IsHeader.join_groups (h : header.IsHeader) :
    header.source d = ((header.values? d).map (d.sep ++ ·)).getD [] ∧
      (header.values? d = none → header.groups d = []) ∧
      ∀ values, header.values? d = some values →
        header.groups d ≠ [] ∧ Groups.join d.sep d.subSep (header.groups d) = values := by
  match header, h with
  | .done, _ =>
    refine ⟨rfl, fun _ => rfl, fun values hvalues => ?_⟩
    cases hvalues
  | .sep .group items, _ =>
    refine ⟨rfl, fun hnone => ?_, fun values hvalues => ?_⟩
    · cases hnone
    obtain rfl : items.source d = values := Option.some.inj hvalues
    have hgroups : groups d (.sep .group items) = (Groups.ofPieces (items.pieces d)).toList := rfl
    have hjoin := Groups.join_ofPieces d.sepOf (items.pieces d)
    rw [pieces_text] at hjoin
    rw [hgroups]
    exact ⟨by simp [Groups.toList], hjoin⟩

end Markup

end TagMarkup
