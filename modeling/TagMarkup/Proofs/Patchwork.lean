import TagMarkup.Proofs.Text.Boundary
import TagMarkup.Rendering.Agenda

/-! A text as a patchwork: plain text with regions in it, and in every region a patchwork again. A
patchwork has no offsets: where its regions stand follows from the texts before them. An agenda that
fits a text is the agenda of a patchwork with that text. -/

namespace TagMarkup

/-- A text in which regions are set apart: plain text to the end, or the text before the first
region, what is in that region, and what comes after it. -/
inductive Patchwork
  | plain (text : Text)
  | patch (before : Text) (kind : RegionKind) (inner rest : Patchwork)
  deriving DecidableEq, Repr

namespace Patchwork

def text : Patchwork → Text
  | plain t => t
  | patch before _ inner rest => before ++ (inner.text ++ rest.text)

/-- The text before the first region. -/
def lead : Patchwork → Text
  | plain t => t
  | patch before _ _ _ => before

/-- There are no regions. -/
def isPlain : Patchwork → Bool
  | plain _ => true
  | patch .. => false

/-- The regions of the patchwork when its text begins at the offset `base`. -/
def agenda (base : Nat) : Patchwork → Agenda
  | plain _ => .nil
  | patch before kind inner rest =>
    let start := base + before.bytes
    let stop := start + inner.text.bytes
    .cons ⟨start, stop, kind⟩ (inner.agenda start) (rest.agenda stop)

/-- A patchwork that is one region. -/
def one (kind : RegionKind) (inner : Patchwork) : Patchwork := patch [] kind inner (plain [])

def append : Patchwork → Patchwork → Patchwork
  | plain t, plain u => plain (t ++ u)
  | plain t, patch before kind inner rest => patch (t ++ before) kind inner rest
  | patch before kind inner rest, q => patch before kind inner (rest.append q)

instance : Append Patchwork := ⟨append⟩

@[simp] theorem plain_append_plain (t u : Text) : plain t ++ plain u = plain (t ++ u) := rfl

@[simp] theorem plain_append_patch (t before : Text) (kind : RegionKind)
    (inner rest : Patchwork) :
    plain t ++ patch before kind inner rest = patch (t ++ before) kind inner rest := rfl

@[simp] theorem patch_append (before : Text) (kind : RegionKind) (inner rest q : Patchwork) :
    patch before kind inner rest ++ q = patch before kind inner (rest ++ q) := rfl

theorem plain_append_one_append (t : Text) (kind : RegionKind) (inner rest : Patchwork) :
    plain t ++ one kind inner ++ rest = patch t kind inner rest := by
  cases rest <;> simp [one]

@[simp] theorem plain_nil_append (p : Patchwork) : plain [] ++ p = p := by
  cases p <;> rfl

@[simp] theorem append_plain_nil (p : Patchwork) : p ++ plain [] = p := by
  induction p with
  | plain t => simp
  | patch before kind inner rest _ ih => rw [patch_append, ih]

theorem append_assoc (p q r : Patchwork) : p ++ q ++ r = p ++ (q ++ r) := by
  induction p with
  | plain t => cases q <;> cases r <;> simp
  | patch before kind inner rest _ ih => simp only [patch_append, ih]

@[simp] theorem text_plain (t : Text) : (plain t).text = t := rfl

@[simp] theorem text_patch (before : Text) (kind : RegionKind) (inner rest : Patchwork) :
    (patch before kind inner rest).text = before ++ (inner.text ++ rest.text) := rfl

@[simp] theorem text_one (kind : RegionKind) (inner : Patchwork) :
    (one kind inner).text = inner.text := by simp [one]

@[simp] theorem text_append (p q : Patchwork) : (p ++ q).text = p.text ++ q.text := by
  induction p with
  | plain t => cases q <;> simp
  | patch before kind inner rest _ ih => simp [ih]

theorem lead_isPrefix_text (p : Patchwork) : p.lead <+: p.text := by
  cases p with
  | plain t => exact List.prefix_rfl
  | patch before kind inner rest => exact List.prefix_append _ _

theorem lead_isPrefix_append (p q : Patchwork) : p.lead <+: (p ++ q).lead := by
  cases p with
  | plain t => cases q <;> exact List.prefix_append _ _
  | patch before kind inner rest => exact List.prefix_rfl

@[simp] theorem lead_plain_append (t : Text) (q : Patchwork) :
    (plain t ++ q).lead = t ++ q.lead := by
  cases q <;> rfl

theorem lead_append_patch (p : Patchwork) (lead : Text) (kind : RegionKind)
    (inner rest : Patchwork) :
    (p ++ patch lead kind inner rest).lead = (p ++ plain lead).lead := by
  cases p <;> rfl

theorem eq_plain_of_isPlain {p : Patchwork} (h : p.isPlain = true) : p = plain p.text := by
  cases p with
  | plain t => rfl
  | patch before kind inner rest => cases h

@[simp] theorem isPlain_append (p q : Patchwork) :
    (p ++ q).isPlain = (p.isPlain && q.isPlain) := by
  cases p with
  | plain t => cases q <;> rfl
  | patch before kind inner rest => rfl

@[simp] theorem agenda_plain (base : Nat) (t : Text) : (plain t).agenda base = .nil := rfl

@[simp] theorem agenda_append (base : Nat) (p q : Patchwork) :
    (p ++ q).agenda base = p.agenda base ++ q.agenda (base + p.text.bytes) := by
  induction p generalizing base with
  | plain t => cases q <;> simp [agenda, Nat.add_assoc]
  | patch before kind inner rest _ ih => simp [agenda, ih, Nat.add_assoc]

@[simp] theorem agenda_one (base : Nat) (kind : RegionKind) (inner : Patchwork) :
    (one kind inner).agenda base =
      .tree ⟨base, base + inner.text.bytes, kind⟩ (inner.agenda base) := by
  simp [one, agenda, Forest.tree]

theorem agenda_eq_nil {base : Nat} {p : Patchwork} : p.agenda base = .nil ↔ p.isPlain = true := by
  cases p <;> simp [agenda, isPlain]

end Patchwork

namespace Agenda

/-- The regions stand between the offsets `lo` and `hi` of a text: they begin and end where the
text can be cut, one after another, and the regions inside a region stand between its ends. -/
def Fits (t : Text) : Nat → Nat → Agenda → Prop
  | lo, hi, .nil => lo ≤ hi
  | lo, hi, .cons region inner rest =>
    lo ≤ region.start ∧ t.Boundary region.start ∧ t.Boundary region.stop ∧
      Fits t region.start region.stop inner ∧ Fits t region.stop hi rest

instance decidableFits (t : Text) : (lo hi : Nat) → (a : Agenda) → Decidable (Fits t lo hi a)
  | lo, hi, .nil => inferInstanceAs (Decidable (lo ≤ hi))
  | lo, hi, .cons region inner rest =>
    have := decidableFits t region.start region.stop inner
    have := decidableFits t region.stop hi rest
    inferInstanceAs (Decidable (lo ≤ region.start ∧ t.Boundary region.start ∧
      t.Boundary region.stop ∧ Fits t region.start region.stop inner ∧
      Fits t region.stop hi rest))

variable {t : Text} {lo hi : Nat} {a : Agenda}

theorem Fits.le (h : Fits t lo hi a) : lo ≤ hi := by
  induction a generalizing lo hi with
  | nil => exact h
  | cons region inner rest ihi ihr =>
    obtain ⟨hlo, -, -, hinner, hrest⟩ := h
    exact Nat.le_trans hlo (Nat.le_trans (ihi hinner) (ihr hrest))

theorem fits_agenda (p : Patchwork) (before after : Text) :
    Fits (before ++ (p.text ++ after)) before.bytes (before.bytes + p.text.bytes)
      (p.agenda before.bytes) := by
  induction p generalizing before after with
  | plain t => exact Nat.le_add_right _ _
  | patch lead kind inner rest ihi ihr =>
    have hi := ihi (before ++ lead) (rest.text ++ after)
    have hr := ihr (before ++ (lead ++ inner.text)) after
    have hstart := Text.boundary_append (before ++ lead) (inner.text ++ (rest.text ++ after))
    have hstop := Text.boundary_append (before ++ (lead ++ inner.text)) (rest.text ++ after)
    simp only [Text.bytes_append, List.append_assoc, Nat.add_assoc] at hi hr hstart hstop
    refine ⟨Nat.le_add_right _ _, ?_, ?_, ?_, ?_⟩
    all_goals simpa [Nat.add_assoc]

/-- An agenda that fits a part of a text is the agenda of a patchwork of that part. -/
theorem Fits.exists_patchwork (before middle after : Text)
    (h : Fits (before ++ (middle ++ after)) before.bytes (before.bytes + middle.bytes) a) :
    ∃ p : Patchwork, p.text = middle ∧ p.agenda before.bytes = a := by
  induction a generalizing before middle after with
  | nil => exact ⟨.plain middle, rfl, rfl⟩
  | cons region inner rest ihi ihr =>
    obtain ⟨hlo, hstart, hstop, hinner, hrest⟩ := h
    have hin := hinner.le
    have hhi := hrest.le
    obtain ⟨lead, tail, rfl, hs⟩ := hstart.split hlo (by omega)
    have hstop' : ((before ++ lead) ++ (tail ++ after)).Boundary region.stop := by
      simpa using hstop
    obtain ⟨mid, last, rfl, he⟩ := hstop'.split (by simp; omega) (by simp at hhi ⊢; omega)
    simp only [Text.bytes_append, ← hs] at he
    obtain ⟨p, hp, hpa⟩ := ihi (before ++ lead) mid (last ++ after)
      (by simpa [← hs, ← he] using hinner)
    obtain ⟨q, hq, hqa⟩ := ihr (before ++ (lead ++ mid)) last after (by
        have : before.bytes + (lead.bytes + mid.bytes) = region.stop := by omega
        simpa [← Nat.add_assoc, this, ← hs, ← he] using hrest)
    refine ⟨.patch lead region.kind p q, by simp [hp, hq], ?_⟩
    simp only [Text.bytes_append, ← hs, ← Nat.add_assoc, ← he] at hpa hqa
    simp only [Patchwork.agenda, hp, ← hs, ← he, hpa, hqa]

/-- An agenda fits a text if it is the agenda of a patchwork of that text. -/
theorem fits_iff_exists_patchwork :
    Fits t 0 t.bytes a ↔ ∃ p : Patchwork, p.text = t ∧ p.agenda 0 = a := by
  constructor
  · intro h
    exact Fits.exists_patchwork [] t [] (by simpa using h)
  · rintro ⟨p, rfl, rfl⟩
    simpa using fits_agenda p [] []

end Agenda

end TagMarkup
