import Mathlib.Data.List.TakeDrop
import TagMarkup.Settings.Toml.Reading

/-! Documents in which every key stands once in its table. Setting and merging keep it so, whatever
the order of the keys is, and a file that can be read makes no other document (`read?_keyed`). -/

namespace TagMarkup.Settings

/-- No key stands twice in the document or in a table in it. -/
def Document.Keyed : Document → Prop
  | nil => True
  | value key _ rest | array key _ rest => rest.get? key = none ∧ rest.Keyed
  | table key inner rest => rest.get? key = none ∧ inner.Keyed ∧ rest.Keyed

def Item.Keyed : Item → Prop
  | .table d => d.Keyed
  | .scalar _ | .array _ => True

theorem Item.Keyed.scalar (s : Scalar) : (Item.scalar s).Keyed := trivial

theorem Item.Keyed.array (es : Document) : (Item.array es).Keyed := trivial

theorem Item.Keyed.empty : (Item.table .nil).Keyed := trivial

namespace Document

variable {d top base : Document} {key : Text} {item : Item}

theorem keyed_cons (hd : d.Keyed) (hkey : d.get? key = none) (hitem : item.Keyed) :
    (cons key item d).Keyed := by
  cases item with
  | scalar s => exact ⟨hkey, hd⟩
  | array es => exact ⟨hkey, hd⟩
  | table inner => exact ⟨hkey, hitem, hd⟩

theorem Keyed.get? (hd : d.Keyed) (h : d.get? key = some item) : item.Keyed := by
  induction d with
  | nil => cases h
  | value k s rest ih =>
    rw [Document.get?] at h
    split at h
    · cases h
      trivial
    · exact ih hd.2 h
  | array k es rest _ ih =>
    rw [Document.get?] at h
    split at h
    · cases h
      trivial
    · exact ih hd.2 h
  | table k inner rest _ ih =>
    rw [Document.get?] at h
    split at h
    · cases h
      exact hd.2.1
    · exact ih hd.2.2 h

theorem Keyed.set (hd : d.Keyed) (key : Text) (hitem : item.Keyed) : (d.set key item).Keyed := by
  -- a key that is not there is not there after another one has been set
  have hrest {k : Text} {rest : Document} (hk : k ≠ key) (h : rest.get? k = none) :
      (rest.set key item).get? k = none := by rw [get?_set, if_neg hk, h]
  induction d with
  | nil => exact keyed_cons trivial rfl hitem
  | value k s rest ih =>
    rw [Document.set]
    split
    · exact keyed_cons hd.2 hd.1 hitem
    · next hk => exact ⟨hrest hk hd.1, ih hd.2⟩
  | array k es rest _ ih =>
    rw [Document.set]
    split
    · exact keyed_cons hd.2 hd.1 hitem
    · next hk => exact ⟨hrest hk hd.1, ih hd.2⟩
  | table k inner rest _ ih =>
    rw [Document.set]
    split
    · exact keyed_cons hd.2.2 hd.1 hitem
    · next hk => exact ⟨hrest hk hd.1, hd.2.1, ih hd.2.2⟩

theorem Keyed.overlay (ht : top.Keyed) (hb : base.Keyed) : (top.overlay base).Keyed := by
  induction top generalizing base with
  | nil => exact hb
  | value key s rest ih => exact (ih ht.2 hb).set key (.scalar s)
  | array key es rest _ ih => exact (ih ht.2 hb).set key (.array es)
  | table key inner rest ihi ih =>
    have hrest := ih ht.2.2 hb
    rw [Document.overlay]
    split
    · next there hthere =>
      have hinner : (Item.table (inner.overlay there)).Keyed := ihi ht.2.1 (hb.get? hthere)
      exact hrest.set key hinner
    · have hinner : (Item.table inner).Keyed := ht.2.1
      exact hrest.set key hinner

end Document

namespace Item

variable {item : Item} {there : Option Item}

theorem Keyed.laidOver (hitem : item.Keyed) (hthere : ∀ i ∈ there, i.Keyed) :
    (item.laidOver there).Keyed := by
  unfold Item.laidOver
  split
  · exact Document.Keyed.overlay hitem (hthere _ rfl)
  · exact hitem

/-- The table that is there, or an empty one. -/
def tableOf : Option Item → Document
  | some (.table d) => d
  | _ => .nil

theorem Keyed.tableOf (hthere : ∀ i ∈ there, i.Keyed) : (tableOf there).Keyed := by
  unfold Item.tableOf
  split
  · exact hthere _ rfl
  · trivial

theorem Keyed.place (hitem : item.Keyed) (path : List Step) (hthere : ∀ i ∈ there, i.Keyed) :
    (item.place path there).Keyed := by
  induction path generalizing there with
  | nil => exact hitem.laidOver hthere
  | cons step path ih =>
    cases step with
    | index i => trivial
    | key key =>
      have hd := Keyed.tableOf hthere
      exact hd.set key (ih fun i hi => hd.get? hi)

end Item

theorem Document.Keyed.place {d : Document} {item : Item} (hd : d.Keyed) (hitem : item.Keyed)
    (path : List Step) : (d.place item path).Keyed := by
  have hthere : ∀ i ∈ some (Item.table d), i.Keyed := fun i hi => Option.some.inj hi ▸ hd
  have hplaced := hitem.place path hthere
  unfold Document.place
  split
  · next d' h => rwa [h] at hplaced
  · exact hd

namespace Toml

namespace Draft

variable {draft next : Draft} {may : Origin → Bool} {made : Origin} {path base : List Step}
  {keys : List Text} {item : Item}

theorem keyed_put (hd : draft.document.Keyed) (path : List Step) (hitem : item.Keyed) :
    (draft.put path item).document.Keyed := hd.place hitem path

theorem keyed_enter? (hd : draft.document.Keyed)
    (h : draft.enter? may made path = some (base, next)) : next.document.Keyed := by
  unfold enter? at h
  split at h
  · cases h
    exact keyed_put hd path .empty
  · cases h
  · split at h
    · cases h
      exact hd
    · cases h
  · split at h
    · cases h
      exact hd
    · cases h

theorem keyed_enterAll? (hd : draft.document.Keyed)
    (h : draft.enterAll? may made base keys = some (path, next)) : next.document.Keyed := by
  induction keys generalizing draft base with
  | nil =>
    cases h
    exact hd
  | cons key keys ih =>
    obtain ⟨⟨path', draft'⟩, henter, hrest⟩ := Option.bind_eq_some_iff.1 h
    exact ih (keyed_enter? hd henter) hrest

theorem keyed_addDotted? (hd : draft.document.Keyed) (h : draft.addDotted? path = some next) :
    next.document.Keyed := by
  unfold addDotted? at h
  split at h
  · cases h
    exact hd
  · cases h

/-- The last step of an assignment, which sets the key if nothing is there. -/
theorem keyed_assigned (hd : draft.document.Keyed)
    (h : (match draft.document.find? path, item with
      | some _, _ => none
      | none, .table _ => pure ((draft.put path item).note path .inline)
      | none, _ => pure (draft.put path item)) = some next) (hitem : item.Keyed) :
    next.document.Keyed := by
  have hput := keyed_put hd path hitem
  split at h
  · cases h
  · cases h
    exact hput
  · cases h
    exact hput

theorem keyed_assign? (hd : draft.document.Keyed) (hitem : item.Keyed)
    (h : draft.assign? keys item = some next) : next.document.Keyed := by
  obtain ⟨key, -, h⟩ := Option.bind_eq_some_iff.1 h
  obtain ⟨⟨path, draft₁⟩, henter, h⟩ := Option.bind_eq_some_iff.1 h
  have hd₁ := keyed_enterAll? hd henter
  dsimp only at h
  split at h
  · obtain ⟨draft₂, hdotted, h⟩ := Option.bind_eq_some_iff.1 h
    exact keyed_assigned (keyed_addDotted? hd₁ hdotted) h hitem
  · exact keyed_assigned hd₁ h hitem

theorem keyed_enterHeader? (hd : draft.document.Keyed)
    (h : draft.enterHeader? keys = some (path, next)) : next.document.Keyed := by
  obtain ⟨key, -, h⟩ := Option.bind_eq_some_iff.1 h
  obtain ⟨⟨path', draft'⟩, henter, h⟩ := Option.bind_eq_some_iff.1 h
  cases h
  exact keyed_enterAll? hd henter

theorem keyed_openTable? (hd : draft.document.Keyed) (h : draft.openTable? keys = some next) :
    next.document.Keyed := by
  obtain ⟨⟨path, draft'⟩, henter, h⟩ := Option.bind_eq_some_iff.1 h
  have hd' := keyed_enterHeader? hd henter
  dsimp only at h
  split at h
  · cases h
    exact hd'.place .empty path
  · split at h
    · cases h
      exact hd'
    · cases h
  · cases h

theorem keyed_openNext? (hd : draft.document.Keyed) (h : draft.openNext? keys = some next) :
    next.document.Keyed := by
  obtain ⟨⟨path, draft'⟩, henter, h⟩ := Option.bind_eq_some_iff.1 h
  have hd' := keyed_enterHeader? hd henter
  dsimp only at h
  split at h
  · cases h
    exact hd'.place .empty _
  · split at h
    · cases h
      exact hd'.place .empty _
    · cases h
  · cases h

theorem keyed_ofAssignments? {assignments : List (List Text × Item)} {d : Document}
    (ha : ∀ a ∈ assignments, a.2.Keyed) (h : ofAssignments? assignments = some d) : d.Keyed := by
  obtain ⟨last, hlast, rfl⟩ := Option.map_eq_some_iff.1 h
  suffices hfold : ∀ draft : Draft, draft.document.Keyed →
      assignments.foldlM (fun draft a => assign? draft a.1 a.2) draft = some last →
        last.document.Keyed from hfold empty trivial hlast
  clear h hlast
  induction assignments with
  | nil =>
    intro draft hd h
    cases h
    exact hd
  | cons a assignments ih =>
    intro draft hd h
    obtain ⟨draft', hassign, hrest⟩ := Option.bind_eq_some_iff.1 h
    rw [List.forall_mem_cons] at ha
    exact ih ha.2 draft' (keyed_assign? hd ha.1 hassign) hrest

end Draft

/-- No key stands twice in a value that has been read. -/
def Piece.Keyed : Piece → Prop
  | .value item => item.Keyed
  | .lexeme _ | .header _ | .next _ => True

/-- No key stands twice in any value of the row. -/
def KeyedRow (ps : List Piece) : Prop := ∀ p ∈ ps, p.Keyed

namespace KeyedRow

variable {ps : List Piece}

theorem reverse (h : KeyedRow ps) : KeyedRow ps.reverse := fun p hp => h p (List.mem_reverse.1 hp)

theorem trim (h : KeyedRow ps) (leftOut : Piece → Bool) : KeyedRow (Piece.trim leftOut ps) := by
  intro p hp
  have hreverse := (List.dropWhile_suffix leftOut).subset (List.mem_reverse.1 hp)
  exact h p ((List.dropWhile_suffix leftOut).subset (List.mem_reverse.1 hreverse))

theorem splitOnP (h : KeyedRow ps) (isMark : Piece → Bool) :
    ∀ part ∈ ps.splitOnP isMark, KeyedRow part := by
  induction ps with
  | nil => simp [KeyedRow]
  | cons p ps ih =>
    have hps : KeyedRow ps := fun q hq => h q (List.mem_cons_of_mem p hq)
    rw [List.splitOnP_cons_eq_if_modifyHead]
    split
    · rintro part (_ | ⟨_, hpart⟩)
      · exact List.forall_mem_nil _
      · exact ih hps part hpart
    · have ih := ih hps
      generalize ps.splitOnP isMark = parts at ih ⊢
      cases parts with
      | nil => exact ih
      | cons head parts =>
        rintro part (_ | ⟨_, hpart⟩)
        · rintro q (_ | ⟨_, hq⟩)
          · exact h p (List.mem_cons_self ..)
          · exact ih head (List.mem_cons_self ..) q hq
        · exact ih part (List.mem_cons_of_mem _ hpart)

theorem parts (h : KeyedRow ps) : ∀ part ∈ Piece.parts ps, KeyedRow part := by
  have hall : ∀ part ∈ (ps.splitOnP (Piece.isMark ',')).map (Piece.trim Piece.isSpace),
      KeyedRow part :=
    List.forall_mem_map.2 fun part hpart => (h.splitOnP _ part hpart).trim _
  unfold Piece.parts
  dsimp only
  split
  · exact fun part hpart => hall part ((List.dropLast_sublist _).subset hpart)
  · exact hall

theorem item? {item : Item} (h : KeyedRow ps) (hitem : Piece.item? ps = some item) :
    item.Keyed := by
  unfold Piece.item? at hitem
  have htrim := h.trim Piece.isSpace
  split at hitem
  · next heq =>
    cases hitem
    exact htrim _ (heq ▸ List.mem_singleton_self _)
  · cases hitem
    trivial
  · cases hitem
    trivial
  · obtain ⟨ts, -, hitem⟩ := Option.bind_eq_some_iff.1 hitem
    obtain ⟨s, -, hitem⟩ := Option.bind_eq_some_iff.1 hitem
    cases hitem
    trivial

theorem assignment? {assignment : List Text × Item} (h : KeyedRow ps)
    (ha : Piece.assignment? ps = some assignment) : assignment.2.Keyed := by
  unfold Piece.assignment? at ha
  rw [List.span_eq_takeWhile_dropWhile] at ha
  split at ha
  · next heq =>
    obtain ⟨keys, -, ha⟩ := Option.bind_eq_some_iff.1 ha
    obtain ⟨item, hitem, ha⟩ := Option.bind_eq_some_iff.1 ha
    cases ha
    have hdrop := (Prod.mk.inj heq).2
    refine item? (fun p hp => h p ?_) hitem
    exact (List.dropWhile_suffix _).subset (hdrop ▸ List.mem_cons_of_mem _ hp)
  · cases ha

theorem mapM_assignment? {rows : List (List Piece)} {assignments : List (List Text × Item)}
    (h : ∀ row ∈ rows, KeyedRow row) (ha : rows.mapM Piece.assignment? = some assignments) :
    ∀ a ∈ assignments, a.2.Keyed := by
  induction rows generalizing assignments with
  | nil =>
    cases ha
    exact List.forall_mem_nil _
  | cons row rows ih =>
    rw [List.mapM_cons] at ha
    obtain ⟨first, hfirst, ha⟩ := Option.bind_eq_some_iff.1 ha
    obtain ⟨rest, hrest, ha⟩ := Option.bind_eq_some_iff.1 ha
    cases ha
    rintro a (_ | ⟨_, ha⟩)
    · exact (h row (List.mem_cons_self ..)).assignment? hfirst
    · exact ih (fun r hr => h r (List.mem_cons_of_mem _ hr)) hrest a ha

end KeyedRow

theorem Bracket.keyed_close? {b : Bracket} {ps : List Piece} {p : Piece} (h : KeyedRow ps)
    (hclose : b.close? ps = some p) : p.Keyed := by
  cases b with
  | header =>
    change Piece.header? ps = some p at hclose
    unfold Piece.header? at hclose
    split at hclose
    · cases hclose
      trivial
    · obtain ⟨keys, -, rfl⟩ := Option.map_eq_some_iff.1 hclose
      trivial
  | array =>
    obtain ⟨items, -, hclose⟩ := Option.bind_eq_some_iff.1 hclose
    cases hclose
    trivial
  | inline =>
    obtain ⟨assignments, hmap, hclose⟩ := Option.bind_eq_some_iff.1 hclose
    obtain ⟨d, hd, hclose⟩ := Option.bind_eq_some_iff.1 hclose
    cases hclose
    exact Draft.keyed_ofAssignments? (KeyedRow.mapM_assignment? h.parts hmap) hd

def Statement.Keyed : Statement → Prop
  | .assign _ item => item.Keyed
  | .header _ | .next _ => True

theorem Statement.keyed_ofPieces? {ps : List Piece} {ended : List Statement} (h : KeyedRow ps)
    (hended : ofPieces? ps = some ended) : ∀ s ∈ ended, s.Keyed := by
  unfold ofPieces? at hended
  split at hended
  · cases hended
    exact List.forall_mem_nil _
  · cases hended
    exact List.forall_mem_singleton.2 trivial
  · cases hended
    exact List.forall_mem_singleton.2 trivial
  · obtain ⟨⟨keys, item⟩, ha, rfl⟩ := Option.map_eq_some_iff.1 hended
    exact List.forall_mem_singleton.2 ((h.trim _).assignment? ha)

namespace Row

variable {row next : Row} {ended statements : List Statement}

/-- No key stands twice in a value of the row or of what its open brackets are in. -/
structure Keyed (row : Row) : Prop where
  pieces : KeyedRow row.pieces
  opened : ∀ b ∈ row.opened, KeyedRow b.2

theorem keyed_empty : empty.Keyed := ⟨List.forall_mem_nil _, List.forall_mem_nil _⟩

theorem Keyed.push? {b : Bracket} (h : row.Keyed) (hpush : row.push? b = some next) :
    next.Keyed := by
  unfold Row.push? at hpush
  split at hpush
  · cases hpush
    exact ⟨List.forall_mem_nil _, List.forall_mem_cons.2 ⟨h.pieces, h.opened⟩⟩
  · cases hpush

theorem Keyed.close? {c : Char} (h : row.Keyed) (hclose : row.close? c = some next) :
    next.Keyed := by
  unfold Row.close? at hclose
  split at hclose
  · cases hclose
  · next heq =>
    have hopened := h.opened
    rw [heq, List.forall_mem_cons] at hopened
    split at hclose
    · obtain ⟨p, hp, rfl⟩ := Option.map_eq_some_iff.1 hclose
      have hp := Bracket.keyed_close? h.pieces.reverse hp
      exact ⟨List.forall_mem_cons.2 ⟨hp, hopened.1⟩, hopened.2⟩
    · cases hclose

theorem Keyed.next? {l : Lexeme} (h : row.Keyed) (hnext : row.next? l = some (next, ended)) :
    next.Keyed ∧ ∀ s ∈ ended, s.Keyed := by
  have hunended {made : Option Row} (hmade : ∀ {r}, made = some r → r.Keyed)
      (hmap : made.map (·, []) = some (next, ended)) : next.Keyed ∧ ∀ s ∈ ended, s.Keyed := by
    obtain ⟨r, hr, heq⟩ := Option.map_eq_some_iff.1 hmap
    cases heq
    exact ⟨hmade hr, List.forall_mem_nil _⟩
  unfold Row.next? at hnext
  split at hnext
  · exact hunended h.push? hnext
  split at hnext
  · exact hunended h.push? hnext
  split at hnext
  · exact hunended h.close? hnext
  split at hnext
  · exact hunended h.close? hnext
  split at hnext
  · obtain ⟨s, hs, heq⟩ := Option.map_eq_some_iff.1 hnext
    cases heq
    exact ⟨keyed_empty, Statement.keyed_ofPieces? h.pieces.reverse hs⟩
  · cases hnext
    exact ⟨⟨List.forall_mem_cons.2 ⟨trivial, h.pieces⟩, h.opened⟩, List.forall_mem_nil _⟩

theorem Keyed.statements? {ls : List Lexeme} (h : row.Keyed)
    (hs : Toml.statements? row ls = some statements) : ∀ s ∈ statements, s.Keyed := by
  induction ls generalizing row statements with
  | nil =>
    change row.finish? = some statements at hs
    unfold Row.finish? at hs
    split at hs
    · exact Statement.keyed_ofPieces? h.pieces.reverse hs
    · cases hs
  | cons l ls ih =>
    obtain ⟨⟨next, ended⟩, hnext, hs⟩ := Option.bind_eq_some_iff.1 hs
    obtain ⟨rest, hrest, hs⟩ := Option.bind_eq_some_iff.1 hs
    cases hs
    obtain ⟨hrow, hended⟩ := h.next? hnext
    exact List.forall_mem_append.2 ⟨hended, ih hrow hrest⟩

end Row

namespace Draft

variable {draft next : Draft}

theorem keyed_next? {s : Statement} (hd : draft.document.Keyed) (hs : s.Keyed)
    (h : draft.next? s = some next) : next.document.Keyed := by
  cases s with
  | header keys => exact keyed_openTable? hd h
  | next keys => exact keyed_openNext? hd h
  | assign keys item => exact keyed_assign? hd hs h

theorem keyed_foldlM_next? {statements : List Statement} (hd : draft.document.Keyed)
    (hs : ∀ s ∈ statements, s.Keyed) (h : statements.foldlM Draft.next? draft = some next) :
    next.document.Keyed := by
  induction statements generalizing draft with
  | nil =>
    cases h
    exact hd
  | cons s statements ih =>
    rw [List.forall_mem_cons] at hs
    obtain ⟨draft', hstep, h⟩ := Option.bind_eq_some_iff.1 h
    exact ih (keyed_next? hd hs.1 hstep) hs.2 h

end Draft

theorem read?_keyed {t : Text} {d : Document} (h : read? t = some d) : d.Keyed := by
  obtain ⟨ls, -, h⟩ := Option.bind_eq_some_iff.1 h
  obtain ⟨statements, hs, h⟩ := Option.bind_eq_some_iff.1 h
  obtain ⟨draft, hdraft, h⟩ := Option.bind_eq_some_iff.1 h
  cases h
  have hempty : Draft.empty.document.Keyed := trivial
  exact Draft.keyed_foldlM_next? hempty (Row.keyed_empty.statements? hs) hdraft

end Toml

end TagMarkup.Settings
