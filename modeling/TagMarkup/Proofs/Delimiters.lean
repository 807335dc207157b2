import Mathlib.Data.List.Pairwise
import TagMarkup.Proofs.Lexing.Step

/-! Which marks are delimiters. They are accepted in any order or in none, because what they need is
that none of them is empty or occurs in another one; then at most one of them begins at a place of a
text, and the order in which a reader looks for them does not matter. Marks that are refused have a
first fault, in the order in which roles are named (`Marks.check_settles`). -/

namespace TagMarkup

section Sorted

variable {α β : Type} {R : α → α → Prop} {l : List α}

/-- The first find in a list that is in order. -/
theorem findSome?_eq_some_iff_of_pairwise {f : α → Option β} {b : β} (hl : l.Pairwise R)
    (hasymm : ∀ a a', R a a' → ¬ R a' a) :
    l.findSome? f = some b ↔ ∃ a ∈ l, f a = some b ∧ ∀ a' ∈ l, R a' a → f a' = none := by
  rw [List.findSome?_eq_some_iff]
  constructor
  · rintro ⟨before, a, after, rfl, ha, hbefore⟩
    refine ⟨a, by simp, ha, fun a' ha' hR => ?_⟩
    obtain ⟨-, hafter, -⟩ := List.pairwise_append.1 hl
    rcases List.mem_append.1 ha' with h | h
    · exact hbefore a' h
    rcases List.mem_cons.1 h with rfl | h
    · exact absurd hR (hasymm _ _ hR)
    · exact absurd hR (hasymm _ _ ((List.pairwise_cons.1 hafter).1 a' h))
  · rintro ⟨a, hmem, ha, hbefore⟩
    obtain ⟨before, after, rfl⟩ := List.append_of_mem hmem
    refine ⟨before, a, after, rfl, ha, fun a' ha' => hbefore a' (by simp [ha']) ?_⟩
    exact (List.pairwise_append.1 hl).2.2 a' ha' a List.mem_cons_self

theorem find?_eq_some_iff_of_pairwise {p : α → Bool} {a : α} (hl : l.Pairwise R)
    (hasymm : ∀ a a', R a a' → ¬ R a' a) :
    l.find? p = some a ↔ a ∈ l ∧ p a = true ∧ ∀ a' ∈ l, R a' a → p a' = false := by
  rw [List.find?_eq_findSome?_guard, findSome?_eq_some_iff_of_pairwise hl hasymm]
  simp only [Option.guard_eq_some_iff, Option.guard_eq_none_iff]
  constructor
  · rintro ⟨_, hmem, ⟨rfl, hp⟩, hbefore⟩
    exact ⟨hmem, hp, hbefore⟩
  · rintro ⟨hmem, hp, hbefore⟩
    exact ⟨a, hmem, ⟨rfl, hp⟩, hbefore⟩

/-- What is found is found in any order if there is no more than one. -/
theorem find?_eq_of_perm {p : α → Bool} {l' : List α} (hl : l.Perm l')
    (hunique : ∀ a b, p a = true → p b = true → a = b) : l.find? p = l'.find? p := by
  cases h : l.find? p with
  | none =>
    have hnone := List.find?_eq_none.1 h
    exact (List.find?_eq_none.2 fun a ha => hnone a (hl.mem_iff.2 ha)).symm
  | some a =>
    cases h' : l'.find? p with
    | none =>
      have ha := hl.mem_iff.1 (List.mem_of_find?_eq_some h)
      exact absurd (List.find?_some h) (List.find?_eq_none.1 h' a ha)
    | some b => rw [hunique a b (List.find?_some h) (List.find?_some h')]

end Sorted

namespace Role

/-- The place of a role in the order in which roles are named. -/
def rank : Role → Nat
  | opener => 0
  | closer => 1
  | sep => 2
  | subSep => 3

/-- The order of pairs: by the first role, and for one first role by the second. -/
def PairBefore (p q : Role × Role) : Prop :=
  p.1.rank < q.1.rank ∨ p.1 = q.1 ∧ p.2.rank < q.2.rank

instance (p q : Role × Role) : Decidable (PairBefore p q) :=
  inferInstanceAs (Decidable (_ ∨ _))

theorem pairwise_all : all.Pairwise fun r s => r.rank < s.rank := by decide

theorem pairwise_pairs : pairs.Pairwise PairBefore := by decide

theorem PairBefore.asymm {p q : Role × Role} (h : PairBefore p q) : ¬ PairBefore q p := by
  rcases h with h | ⟨h, h'⟩
  · rintro (hq | ⟨hq, -⟩)
    · omega
    · rw [hq] at h
      omega
  · rintro (hq | ⟨-, hq⟩)
    · rw [h] at hq
      omega
    · omega

theorem mem_pairs_iff {r s : Role} : (r, s) ∈ pairs ↔ r.rank < s.rank := by
  cases r <;> cases s <;> decide

end Role

namespace Marks

variable {m : Marks} {e : MarksFault}

/-- The marks in the order of their roles. -/
def toList (m : Marks) : List Text := Role.all.map m.get

/-- Neither text occurs in the other one. -/
def Apart (s t : Text) : Prop := ¬ s <:+: t ∧ ¬ t <:+: s

instance : Std.Symm Apart := ⟨fun _ _ h => h.symm⟩

theorem wellFormed_iff_pairwise :
    m.WellFormed ↔ (∀ t ∈ m.toList, t ≠ []) ∧ m.toList.Pairwise Apart := by
  constructor
  · rintro ⟨hne, hapart⟩
    refine ⟨fun t ht => ?_, ?_⟩
    · obtain ⟨r, -, rfl⟩ := List.mem_map.1 ht
      exact hne r
    · refine List.pairwise_map.2 (Role.pairwise_all.imp fun {r s} hrs => ?_)
      have hne : r ≠ s := by
        rintro rfl
        omega
      exact ⟨hapart r s hne, hapart s r hne.symm⟩
  · rintro ⟨hne, hpairwise⟩
    refine ⟨fun r => hne _ (List.mem_map_of_mem (Role.mem_all r)), fun r s hrs => ?_⟩
    have : Std.Symm fun r s => Apart (m.get r) (m.get s) := ⟨fun _ _ h => h.symm⟩
    exact ((List.pairwise_map.1 hpairwise).forall (Role.mem_all r) (Role.mem_all s) hrs).1

/-- What is wrong with two marks is that they are the same, or that one of them, which is strictly
shorter, occurs in the other one. -/
inductive Offends (m : Marks) (first second : Role) : MarksFault → Prop
  | same (same : m.get first = m.get second) :
    Offends m first second (.duplicate first second (m.get first))
  | inside {inner outer : Role}
    (roles : inner = first ∧ outer = second ∨ inner = second ∧ outer = first)
    (inside : m.get inner <:+: m.get outer)
    (shorter : (m.get inner).bytes < (m.get outer).bytes) :
    Offends m first second (.overlapping inner (m.get inner) outer (m.get outer))

/-- The fault of marks that is told: the first empty mark, and only if there is none, the first two
marks that are not apart. -/
inductive FirstFault (m : Marks) : MarksFault → Prop
  | empty {r : Role} (empty : m.get r = []) (first : ∀ s, s.rank < r.rank → m.get s ≠ []) :
    FirstFault m (.empty r)
  | clash {first second : Role} {e : MarksFault} (nonempty : ∀ r, m.get r ≠ [])
    (roles : first.rank < second.rank)
    (earlier : ∀ r s, r.rank < s.rank → Role.PairBefore (r, s) (first, second) →
      Apart (m.get r) (m.get s))
    (offence : m.Offends first second e) : FirstFault m e

/-- Of two marks, one that is not longer is looked for in the other one. -/
theorem exists_clash?_eq (m : Marks) (r s : Role) : ∃ inner outer,
    (inner = r ∧ outer = s ∨ inner = s ∧ outer = r) ∧
      (m.get inner).bytes ≤ (m.get outer).bytes ∧
      m.clash? r s = if m.get r = m.get s then some (.duplicate r s (m.get r))
        else if Text.occursIn (m.get inner) (m.get outer) then
          some (.overlapping inner (m.get inner) outer (m.get outer))
        else none := by
  by_cases hb : (m.get r).bytes ≤ (m.get s).bytes
  · exact ⟨r, s, .inl ⟨rfl, rfl⟩, hb, by simp only [clash?, if_pos hb]⟩
  · exact ⟨s, r, .inr ⟨rfl, rfl⟩, by omega, by simp only [clash?, if_neg hb]⟩

theorem clash?_eq_some {r s : Role} : m.clash? r s = some e ↔ m.Offends r s e := by
  obtain ⟨inner, outer, hroles, hle, hclash⟩ := m.exists_clash?_eq r s
  rw [hclash]
  by_cases heq : m.get r = m.get s
  · rw [if_pos heq, Option.some.injEq]
    refine ⟨fun h => h ▸ .same heq, fun h => ?_⟩
    cases h with
    | same => rfl
    | inside roles _ shorter =>
      -- marks that are the same are as long as each other
      rcases roles with ⟨rfl, rfl⟩ | ⟨rfl, rfl⟩ <;> rw [heq] at shorter <;> omega
  · rw [if_neg heq, Option.ite_none_right_eq_some, Text.occursIn_iff, Option.some.injEq]
    constructor
    · rintro ⟨hin, rfl⟩
      refine .inside hroles hin (Nat.lt_of_not_le fun hb => heq ?_)
      have hsame := Text.eq_of_infix hin hb
      rcases hroles with ⟨rfl, rfl⟩ | ⟨rfl, rfl⟩
      · exact hsame
      · exact hsame.symm
    · intro h
      cases h with
      | same same => exact absurd same heq
      | inside roles inside shorter =>
        rcases roles with ⟨rfl, rfl⟩ | ⟨rfl, rfl⟩
        · rcases hroles with ⟨rfl, rfl⟩ | ⟨rfl, rfl⟩
          · exact ⟨inside, rfl⟩
          · omega
        · rcases hroles with ⟨rfl, rfl⟩ | ⟨rfl, rfl⟩
          · omega
          · exact ⟨inside, rfl⟩

theorem fault?_eq_some : m.fault? = some e ↔ m.FirstFault e := by
  have hnonempty : Role.all.find? (fun r => (m.get r).isEmpty) = none ↔ ∀ r, m.get r ≠ [] := by
    simp [List.find?_eq_none, Role.mem_all]
  have hranks (r s : Role) (h : r.rank < s.rank) : ¬ s.rank < r.rank := by omega
  have hempty (r : Role) := find?_eq_some_iff_of_pairwise (p := fun r => (m.get r).isEmpty)
    (a := r) Role.pairwise_all hranks
  have hclash := findSome?_eq_some_iff_of_pairwise (f := fun p => m.clash? p.1 p.2) (b := e)
    Role.pairwise_pairs fun _ _ => Role.PairBefore.asymm
  simp only [List.isEmpty_iff, Role.mem_all, true_and, forall_const, List.isEmpty_eq_false_iff]
    at hempty
  simp only [Prod.exists, Prod.forall, Role.mem_pairs_iff, clash?_eq_some, clash?_eq_none] at hclash
  rw [fault?, Option.or_eq_some_iff, Option.map_eq_some_iff, Option.map_eq_none_iff, hnonempty,
    hclash]
  constructor
  · rintro (⟨r, hr, rfl⟩ | ⟨hne, first, second, hroles, hoffence, hearlier⟩)
    · obtain ⟨hnil, hfirst⟩ := (hempty r).1 hr
      exact .empty hnil hfirst
    · exact .clash hne hroles hearlier hoffence
  · intro h
    cases h with
    | @empty r hnil hfirst => exact .inl ⟨r, (hempty r).2 ⟨hnil, hfirst⟩, rfl⟩
    | clash hne hroles hearlier hoffence => exact .inr ⟨hne, _, _, hroles, hoffence, hearlier⟩

end Marks

namespace Cursor

/-- The token of a mark that stands here, among the values of a tag. -/
def takeMark (d : Delimiters) (c : Cursor) : Role → Token × Cursor
  | .opener => (c.push (.inlineKey false)).take .inlineOpen d.opener
  | .closer => c.close d
  | .sep => c.take (.sep .group) d.sep
  | .subSep => c.take (.sep .value) d.subSep

/-- One token among the values of a tag, where marks are looked for in this order when no tag
opens. -/
def stepValuesBy (d : Delimiters) (order : List Role) (c : Cursor) :
    Except MarkupError (Token × Cursor) :=
  if c.sees d.blockCloser then .error (.strayBlockClose c.position)
  else
    .ok <|
      match c.open? d with
      | some next => next
      | none =>
        match order.find? fun r => c.sees (d.get r) with
        | some r => c.takeMark d r
        | none => c.run [d.opener, d.closer, d.sep, d.subSep]

theorem stepValuesBy_eq (d : Delimiters) {order : List Role}
    (h : order.Perm [.closer, .sep, .subSep]) (c : Cursor) :
    c.stepValuesBy d order = c.stepValues d := by
  have hfind := find?_eq_of_perm (p := fun r => c.sees (d.get r)) h fun r s hr hs =>
    Delimiters.role_eq_of_begins (sees_iff.1 hr) (sees_iff.1 hs)
  unfold stepValuesBy stepValues
  rw [hfind]
  split
  · rfl
  · cases c.open? d with
    | some next => rfl
    | none =>
      simp only [List.find?_cons, List.find?_nil, Marks.get]
      cases c.sees d.closer with
      | true => rfl
      | false =>
        cases c.sees d.sep with
        | true => rfl
        | false => cases c.sees d.subSep <;> rfl

end Cursor

/-- Marks are accepted exactly if none is empty and none occurs in another one, whatever their order
is. Of marks that are accepted at most one begins at a place, so among the values of a tag they may
be looked for in any order. Marks that are refused are refused for their first fault. -/
theorem Marks.check_settles (m : Marks) :
    ((∃ d, m.check = .ok d ∧ d.toMarks = m) ↔
      (∀ r, m.get r ≠ []) ∧ ∀ r s, r ≠ s → ¬ m.get r <:+: m.get s) ∧
    (∀ m' : Marks, m.toList.Perm m'.toList →
      ((∃ d, m.check = .ok d) ↔ ∃ d, m'.check = .ok d)) ∧
    (∀ d, m.check = .ok d →
      (∀ (t : Text) (i : Nat) r s, m.get r <+: t.drop i → m.get s <+: t.drop i → r = s) ∧
      ∀ order : List Role, order.Perm [.closer, .sep, .subSep] → ∀ c : Cursor,
        c.stepValuesBy d order = c.stepValues d) ∧
    ∀ e, m.check = .error e ↔ m.FirstFault e := by
  have haccepted (m : Marks) : (∃ d, m.check = .ok d) ↔ m.WellFormed := by
    simp only [check_eq_ok]
    exact ⟨fun ⟨d, hd⟩ => hd ▸ d.wellFormed, fun h => ⟨⟨m, h⟩, rfl⟩⟩
  refine ⟨?_, fun m' hperm => ?_, fun d hd => ?_, fun e => ?_⟩
  · constructor
    · rintro ⟨d, hd, -⟩
      have hm := (haccepted m).1 ⟨d, hd⟩
      exact ⟨hm.nonempty, hm.apart⟩
    · rintro ⟨hnonempty, hapart⟩
      obtain ⟨d, hd⟩ := (haccepted m).2 ⟨hnonempty, hapart⟩
      exact ⟨d, hd, check_eq_ok.1 hd⟩
  · have hpairwise : m.toList.Pairwise Apart ↔ m'.toList.Pairwise Apart :=
      hperm.pairwise_iff And.symm
    simp only [haccepted, wellFormed_iff_pairwise, hpairwise, hperm.mem_iff]
  · obtain rfl := check_eq_ok.1 hd
    exact ⟨fun t i r s hr hs => Delimiters.role_eq_of_begins hr hs,
      fun order horder => Cursor.stepValuesBy_eq d horder⟩
  · rw [check_eq_error, fault?_eq_some]

/-- Marks of which some begin with what others end with, in two orders. -/
theorem Marks.check_settles_touching :
    let m : Marks := ⟨"[[".toList, "]]".toList, ":[".toList, "b]".toList⟩
    let m' : Marks := ⟨":[".toList, "b]".toList, "]]".toList, "[[".toList⟩
    ∃ d d', m.check = .ok d ∧ m'.check = .ok d' ∧ ∀ c : Cursor,
      c.stepValuesBy d [.subSep, .sep, .closer] = c.stepValues d := by
  intro m m'
  obtain ⟨haccepted, horder, hread, -⟩ := m.check_settles
  have hm : m.WellFormed := fault?_eq_none.1 (by decide)
  obtain ⟨d, hd, -⟩ := haccepted.2 ⟨hm.nonempty, hm.apart⟩
  obtain ⟨d', hd'⟩ := (horder m' (by decide)).1 ⟨d, hd⟩
  exact ⟨d, d', hd, hd', (hread d hd).2 _ (by decide)⟩

end TagMarkup
