import TagMarkup.Text.Quoted
import TagMarkup.Text.Search

/-! The four marks that make up tag markup. `Delimiters` are marks that no text can confuse: none
is empty and none occurs inside another. `Marks.fault?` finds what is wrong with other marks, and
`Marks.check` gives delimiters exactly for the marks that have no fault. -/

namespace TagMarkup

/-- What a mark is for: opening and closing a tag, and separating groups and the values inside
one. -/
inductive Role
  | opener
  | closer
  | sep
  | subSep
  deriving DecidableEq, Repr

namespace Role

def name : Role → String
  | opener => "open"
  | closer => "close"
  | sep => "sep"
  | subSep => "sub_sep"

def all : List Role := [opener, closer, sep, subSep]

/-- Every two different roles, the earlier one first. -/
def pairs : List (Role × Role) :=
  [(opener, closer), (opener, sep), (opener, subSep), (closer, sep), (closer, subSep),
    (sep, subSep)]

theorem mem_all (r : Role) : r ∈ all := by cases r <;> decide

theorem mem_pairs {r s : Role} (h : r ≠ s) : (r, s) ∈ pairs ∨ (s, r) ∈ pairs := by
  cases r <;> cases s <;> simp_all [pairs]

end Role

/-- A text for each role. -/
structure Marks where
  opener : Text
  closer : Text
  sep : Text
  subSep : Text
  deriving DecidableEq, Repr

/-- What is wrong with marks that are no delimiters. -/
inductive MarksFault
  | empty (role : Role)
  | duplicate (first second : Role) (value : Text)
  | overlapping (inner : Role) (innerValue : Text) (outer : Role) (outerValue : Text)
  deriving DecidableEq, Repr

def MarksFault.message : MarksFault → String
  | empty role => s!"Delimiter '{role.name}' must not be empty"
  | duplicate first second value =>
    s!"Delimiters '{first.name}' and '{second.name}' are both {String.ofList value.quoted}"
  | overlapping inner innerValue outer outerValue =>
    s!"Delimiter '{inner.name}' ({String.ofList innerValue.quoted}) occurs inside " ++
      s!"'{outer.name}' ({String.ofList outerValue.quoted})"

namespace Marks

def get (m : Marks) : Role → Text
  | .opener => m.opener
  | .closer => m.closer
  | .sep => m.sep
  | .subSep => m.subSep

/-- No mark is empty and none occurs inside another. -/
structure WellFormed (m : Marks) : Prop where
  nonempty : ∀ r, m.get r ≠ []
  apart : ∀ r s, r ≠ s → ¬ m.get r <:+: m.get s

/-- What is wrong with two marks, of which a shorter one is looked for inside the other. -/
def clash? (m : Marks) (first second : Role) : Option MarksFault :=
  if m.get first = m.get second then some (.duplicate first second (m.get first))
  else
    let (inner, outer) :=
      if (m.get first).bytes ≤ (m.get second).bytes then (first, second) else (second, first)
    if Text.occursIn (m.get inner) (m.get outer) then
      some (.overlapping inner (m.get inner) outer (m.get outer))
    else none

/-- The first empty mark, or else the first clash. -/
def fault? (m : Marks) : Option MarksFault :=
  ((Role.all.find? fun r => (m.get r).isEmpty).map .empty).or
    (Role.pairs.findSome? fun (first, second) => m.clash? first second)

theorem clash?_eq_none {m : Marks} {r s : Role} :
    m.clash? r s = none ↔ ¬ m.get r <:+: m.get s ∧ ¬ m.get s <:+: m.get r := by
  unfold clash?
  by_cases he : m.get r = m.get s
  · simp [he]
  by_cases hb : (m.get r).bytes ≤ (m.get s).bytes
  · simp only [he, hb, if_true, if_false, ite_eq_right_iff, reduceCtorEq, imp_false,
      Text.occursIn_iff]
    exact ⟨fun h => ⟨h, fun h' => he (Text.eq_of_infix h' hb).symm⟩, And.left⟩
  · simp only [he, hb, if_false, ite_eq_right_iff, reduceCtorEq, imp_false, Text.occursIn_iff]
    exact ⟨fun h => ⟨fun h' => he (Text.eq_of_infix h' (by omega)), h⟩, And.right⟩

theorem fault?_eq_none {m : Marks} : m.fault? = none ↔ m.WellFormed := by
  simp only [fault?, Option.or_eq_none_iff, Option.map_eq_none_iff, List.find?_eq_none,
    List.findSome?_eq_none_iff, clash?_eq_none, List.isEmpty_iff]
  constructor
  · rintro ⟨hn, ha⟩
    refine ⟨fun r => hn r (Role.mem_all r), fun r s hrs => ?_⟩
    exact (Role.mem_pairs hrs).elim (fun h => (ha _ h).1) (fun h => (ha _ h).2)
  · rintro ⟨hn, ha⟩
    refine ⟨fun r _ => hn r, fun p hp => ?_⟩
    have hne : p.1 ≠ p.2 := by revert p; decide
    exact ⟨ha _ _ hne, ha _ _ hne.symm⟩

end Marks

/-- Marks that no text can confuse. -/
structure Delimiters extends Marks where
  wellFormed : toMarks.WellFormed

namespace Delimiters

instance : DecidableEq Delimiters := fun a b =>
  decidable_of_iff (a.toMarks = b.toMarks) (by cases a; cases b; simp)

def blockOpener (d : Delimiters) : Text := d.opener ++ ['#']

/-- What begins the end of a block tag. -/
def blockCloser (d : Delimiters) : Text := d.opener ++ ['/']

def wrap (d : Delimiters) (inner : Text) : Text := d.opener ++ inner ++ d.closer

theorem opener_ne_nil (d : Delimiters) : d.opener ≠ [] := d.wellFormed.nonempty .opener

theorem closer_ne_nil (d : Delimiters) : d.closer ≠ [] := d.wellFormed.nonempty .closer

theorem sep_ne_nil (d : Delimiters) : d.sep ≠ [] := d.wellFormed.nonempty .sep

theorem subSep_ne_nil (d : Delimiters) : d.subSep ≠ [] := d.wellFormed.nonempty .subSep

end Delimiters

namespace Marks

def check (m : Marks) : Except MarksFault Delimiters :=
  match h : m.fault? with
  | some e => .error e
  | none => .ok ⟨m, fault?_eq_none.1 h⟩

theorem check_eq_ok {m : Marks} {d : Delimiters} : m.check = .ok d ↔ d.toMarks = m := by
  unfold check
  split
  · next e h =>
    refine ⟨fun h => by simp at h, ?_⟩
    rintro rfl
    rw [fault?_eq_none.2 d.wellFormed] at h
    cases h
  · next h =>
    rw [Except.ok.injEq]
    exact ⟨fun h => h ▸ rfl, fun h => by cases d; simp_all⟩

theorem check_eq_error {m : Marks} {e : MarksFault} :
    m.check = .error e ↔ m.fault? = some e := by
  unfold check
  split
  · next h => simp [h]
  · next h => simp [h]

/-- Brackets, colons and bars, each written twice. -/
def standard : Marks :=
  { opener := ['[', '['], closer := [']', ']'], sep := [':', ':'], subSep := ['|', '|'] }

end Marks

/-- The delimiters of a template that names none. -/
def Delimiters.standard : Delimiters := ⟨.standard, Marks.fault?_eq_none.1 (by decide)⟩

instance : Inhabited Delimiters := ⟨.standard⟩

end TagMarkup
