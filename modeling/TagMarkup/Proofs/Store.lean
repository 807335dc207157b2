import TagMarkup.Store

/-! Values that are made when they are fetched. What makes a value may use the store on its way, and
fetch other values from it, with what makes those. A fetch gives what the store has under the key
then, however much has been done to the store meanwhile (`Store.fetch_makes_missing`). -/

namespace TagMarkup

/-- What makes a value: requests to a store, each followed by what is done with the reply, down to
the value. To fetch another value is a request, too. -/
inductive Making : Type → Type 1
  | done {α : Type} (a : α) : Making α
  | read {α : Type} (next : Store → Making α) : Making α
  | insert {α β : Type} [Storable β] (key : Text) (b : β) (next : Bool → Making α) : Making α
  | remove {α : Type} (key : Text) (next : Bool → Making α) : Making α
  | clear {α : Type} (next : Making α) : Making α
  | fetch {α β : Type} [Storable β] (key : Text) (make : Making β) (next : β → Making α) : Making α

/-- The value that is made, and the store after all requests. -/
def Making.run {α : Type} : Making α → Store → α × Store
  | done a, s => (a, s)
  | read next, s => (next s).run s
  | insert key b next, s => (next (s.insert key b).1).run (s.insert key b).2
  | remove key next, s => (next (s.remove key).1).run (s.remove key).2
  | clear next, _ => next.run ∅
  | fetch key make next, s =>
    (next (s.fetchWith key make.run).1).run (s.fetchWith key make.run).2

namespace Store

variable {α : Type} [Storable α] {s : Store} {key : Text}

/-- There is nothing under the key, or a value of another type. -/
def Lacks (s : Store) (α : Type) [Storable α] (key : Text) : Prop :=
  s.values.get? key = none ∨
    ∃ value, s.values.get? key = some value ∧ (Storable.ofValue? value : Option α) = none

theorem lacks_iff : s.Lacks α key ↔ (s.get? key : Option α) = none := by
  unfold Lacks get?
  cases s.values.get? key <;> simp

theorem not_lacks_iff : ¬ s.Lacks α key ↔ ∃ a : α, s.get? key = some a := by
  rw [lacks_iff]
  exact Option.ne_none_iff_exists'

section Fetch

variable {make : Store → α × Store} {a : α}

theorem fetchWith_of_get? (h : s.get? key = some a) : s.fetchWith key make = (a, s) := by
  simp only [fetchWith, h]

/-- A value that is under the key when another one has been made is given instead of that one. -/
theorem fetchWith_of_left (h : s.Lacks α key) (hleft : (make s).2.get? key = some a) :
    s.fetchWith key make = (a, (make s).2) := by
  simp only [fetchWith, lacks_iff.1 h, hleft]

theorem fetchWith_of_lacks (h : s.Lacks α key) (hleft : (make s).2.Lacks α key) :
    s.fetchWith key make = ((make s).1, (make s).2.set key (make s).1) := by
  simp only [fetchWith, lacks_iff.1 h, lacks_iff.1 hleft]

theorem get?_fetchWith (s : Store) (key : Text) (make : Store → α × Store) :
    (s.fetchWith key make).2.get? key = some (s.fetchWith key make).1 := by
  by_cases h : s.Lacks α key
  · by_cases hleft : (make s).2.Lacks α key
    · rw [fetchWith_of_lacks h hleft]
      exact get?_set _ key _
    · obtain ⟨a, ha⟩ := not_lacks_iff.1 hleft
      rw [fetchWith_of_left h ha]
      exact ha
  · obtain ⟨a, ha⟩ := not_lacks_iff.1 h
    rw [fetchWith_of_get? ha]
    exact ha

/-- All that has been done to other keys is kept. -/
theorem values_fetchWith (h : s.Lacks α key) {k : Text} (hk : k ≠ key) :
    (s.fetchWith key make).2.values.get? k = (make s).2.values.get? k := by
  by_cases hleft : (make s).2.Lacks α key
  · rw [fetchWith_of_lacks h hleft]
    simp [set, hk]
  · obtain ⟨a, ha⟩ := not_lacks_iff.1 hleft
    rw [fetchWith_of_left h ha]

end Fetch

/-- Something else might have made a value that is missing, and the outcome would show it. -/
theorem exists_fetchWith_ne (h : s.Lacks α key) (init : Making α) :
    ∃ other : Making α, s.fetchWith key other.run ≠ s.fetchWith key init.run := by
  obtain ⟨k, hk⟩ : ∃ k, k ≠ key := ⟨'_' :: key, List.cons_ne_self _ _⟩
  let a := (s.fetchWith key init.run).1
  have hvalues (other : Making α) (heq : s.fetchWith key other.run = s.fetchWith key init.run) :
      (s.fetchWith key init.run).2.values.get? k = (other.run s).2.values.get? k := by
    rw [← heq]
    exact values_fetchWith h hk
  -- the other one leaves nothing under another key where this one leaves a value, and else a value
  cases hleft : (s.fetchWith key init.run).2.values.get? k with
  | none =>
    refine ⟨.insert k true fun _ => .done a, fun heq => ?_⟩
    have hother := hvalues _ heq
    simp [hleft, Making.run, insert, set] at hother
  | some v =>
    refine ⟨.remove k fun _ => .done a, fun heq => ?_⟩
    have hother := hvalues _ heq
    simp [hleft, Making.run, remove, erase] at hother

/-- A fetch makes a value exactly if the store has none of its type under the key: else the store
stays as it is, and anything might have been there to make the value. What makes the value may do
with the store what it likes. A value of the type that it leaves under the key is given and kept,
and else the value that it makes; whatever it does to other keys is kept. -/
theorem fetch_makes_missing (s : Store) (key : Text) (init : Making α) :
    let made := init.run s
    let fetched := s.fetchWith key init.run
    ((∀ other : Making α, s.fetchWith key other.run = fetched) ↔ ¬ s.Lacks α key) ∧
      (∀ a, s.get? key = some a → fetched = (a, s)) ∧
      (s.Lacks α key →
        (∀ a, made.2.get? key = some a → fetched.1 = a) ∧
        (made.2.Lacks α key → fetched.1 = made.1) ∧
        ∀ k, k ≠ key → fetched.2.values.get? k = made.2.values.get? k) ∧
      fetched.2.get? key = some fetched.1 := by
  intro made fetched
  refine ⟨⟨fun hsame h => ?_, fun h other => ?_⟩, fun a => fetchWith_of_get?, fun h => ?_,
    get?_fetchWith s key init.run⟩
  · obtain ⟨other, hother⟩ := exists_fetchWith_ne h init
    exact hother (hsame other)
  · obtain ⟨a, ha⟩ := not_lacks_iff.1 h
    exact (fetchWith_of_get? ha).trans (fetchWith_of_get? ha).symm
  · refine ⟨fun a ha => ?_, fun hleft => ?_, fun k hk => values_fetchWith h hk⟩
    · show (s.fetchWith key init.run).1 = a
      rw [fetchWith_of_left h ha]
    · show (s.fetchWith key init.run).1 = made.1
      rw [fetchWith_of_lacks h hleft]

/-- What makes a text finds a number under the key, fetches a text from there itself, and in between
everything is erased. -/
theorem fetch_makes_missing_nested :
    let key := "k".toList
    let s : Store := (Store.empty.set key (7 : Int64)).set "x".toList true
    let init : Making Text := .fetch key (.clear (.done "inner".toList)) fun t =>
      .insert "y".toList t fun _ => .done "outer".toList
    let fetched := s.fetchWith key init.run
    s.Lacks Text key ∧ fetched.1 = "inner".toList ∧ fetched.2.get? key = some "inner".toList ∧
      fetched.2.values.get? "y".toList = some (.text "inner".toList) ∧
      fetched.2.values.get? "x".toList = none := by
  intro key s init fetched
  have hlacks : s.Lacks Text key := .inr ⟨.int 7, rfl, rfl⟩
  obtain ⟨-, -, hmade, hkept⟩ := fetch_makes_missing s key init
  obtain ⟨hleft, -, hothers⟩ := hmade hlacks
  have hinner : fetched.1 = "inner".toList := hleft _ rfl
  refine ⟨hlacks, hinner, ?_, (hothers _ (by decide)).trans rfl, (hothers _ (by decide)).trans rfl⟩
  rw [← hinner]
  exact hkept

end Store

end TagMarkup
