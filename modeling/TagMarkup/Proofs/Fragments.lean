import TagMarkup.Fragments
import TagMarkup.Proofs.Text.Boundary

/-! Boundaries that cut a text: they ascend from 0 to the end of the text through offsets at which
it can be cut. They keep doing so when a part of the text that is not empty is replaced and they
move along. The fragments between them make up the text. -/

namespace TagMarkup.Fragments

/-- The boundaries ascend from the beginning of the text to its end, and the text can be cut at all
of them. Fragments between them may be empty. -/
structure Cuts (t : Text) (bs : List Nat) : Prop where
  first : bs.head? = some 0
  last : bs.getLast? = some t.bytes
  ascending : bs.Pairwise (· ≤ ·)
  boundary : ∀ b ∈ bs, t.Boundary b

theorem move_le_move {start stop added p q : Nat} (h : start ≤ stop) (hpq : p ≤ q) :
    move start stop added p ≤ move start stop added q := by
  unfold move
  split <;> split <;> (try split) <;> (try split) <;> omega

theorem move_zero (start stop added : Nat) : move start stop added 0 = 0 := by
  simp [move]

/-- The end of a text moves to the end of the text with a part replaced, if the part was not
empty. -/
theorem move_bytes {old : Text} (ho : old ≠ []) (before new after : Text) :
    move before.bytes (before.bytes + old.bytes) new.bytes (before ++ (old ++ after)).bytes =
      (before ++ (new ++ after)).bytes := by
  have hpos := Text.bytes_pos.2 ho
  simp only [Text.bytes_append]
  rw [move, if_neg (by omega), if_pos (by omega)]
  omega

theorem boundary_move {before old new after : Text} {n : Nat}
    (h : (before ++ (old ++ after)).Boundary n) :
    (before ++ (new ++ after)).Boundary
      (move before.bytes (before.bytes + old.bytes) new.bytes n) := by
  unfold move
  split
  next hn => exact h.before hn
  next =>
    split
    next hn =>
      have hafter : (before ++ old ++ after).Boundary n := by simpa using h
      have := hafter.after (c := before ++ new) (by simpa using hn)
      simp only [Text.bytes_append, List.append_assoc] at this
      have hn' : n - (before.bytes + old.bytes - before.bytes) + new.bytes =
          before.bytes + new.bytes + (n - (before.bytes + old.bytes)) := by omega
      rwa [hn']
    next =>
      have := Text.boundary_append (before ++ new) after
      simpa using this

theorem Cuts.replace {before old new after : Text} {bs : List Nat}
    (h : Cuts (before ++ (old ++ after)) bs) (ho : old ≠ []) :
    Cuts (before ++ (new ++ after))
      (bs.map (move before.bytes (before.bytes + old.bytes) new.bytes)) where
  first := by rw [List.head?_map, h.first, Option.map_some, move_zero]
  last := by rw [List.getLast?_map, h.last, Option.map_some, move_bytes ho]
  ascending := by
    rw [List.pairwise_map]
    exact h.ascending.imp fun hpq => move_le_move (by omega) hpq
  boundary := by
    intro b hb
    obtain ⟨n, hn, rfl⟩ := List.mem_map.1 hb
    exact boundary_move (h.boundary n hn)

/-- Positions move as when a part of a text from `start` to `stop` gives way to one that ends at
`stop'`: what is in front of it stays, and what is behind moves with its end. -/
structure Carries (f : Nat → Nat) (start stop stop' : Nat) : Prop where
  front : ∀ n ≤ start, f n = n
  behind : ∀ n, f (stop + n) = stop' + n

namespace Carries

variable {f g : Nat → Nat} {start stop stop' middle : Nat}

theorem refl (start stop : Nat) : Carries id start stop stop := ⟨fun _ _ => rfl, fun _ => rfl⟩

theorem of_move {added : Nat} (h : start < stop) :
    Carries (move start stop added) start stop (start + added) := by
  constructor
  · intro n hn
    rw [move, if_pos hn]
  · intro n
    rw [move, if_neg (by omega), if_pos (by omega)]
    omega

theorem mono {start' : Nat} (h : Carries f start stop stop') (hs : start' ≤ start) :
    Carries f start' stop stop' :=
  ⟨fun n hn => h.front n (Nat.le_trans hn hs), h.behind⟩

theorem trans (h : Carries f start stop middle) (h' : Carries g start middle stop') :
    Carries (g ∘ f) start stop stop' := by
  constructor
  · intro n hn
    rw [Function.comp, h.front n hn, h'.front n hn]
  · intro n
    rw [Function.comp, h.behind, h'.behind]

/-- After one part a second one right behind it gives way. -/
theorem append {length : Nat} (h : Carries f start stop middle)
    (h' : Carries g middle (middle + length) stop') (hm : start ≤ middle) :
    Carries (g ∘ f) start (stop + length) stop' := by
  constructor
  · intro n hn
    rw [Function.comp, h.front n hn, h'.front n (Nat.le_trans hn hm)]
  · intro n
    rw [Function.comp, Nat.add_assoc, h.behind, ← Nat.add_assoc, h'.behind]

theorem map_boundaries (h : Carries f start stop stop') (fs : List Text) :
    (boundaries stop fs).map f = boundaries stop' fs := by
  have hall (n : Nat) : (boundaries (stop + n) fs).map f = boundaries (stop' + n) fs := by
    induction fs generalizing n with
    | nil => simp [boundaries, h.behind]
    | cons t rest ih => simp only [boundaries, List.map_cons, h.behind, Nat.add_assoc, ih]
  exact hall 0

end Carries

theorem mem_boundaries (before : Text) {fs : List Text} {b : Nat}
    (h : b ∈ boundaries before.bytes fs) :
    before.bytes ≤ b ∧ (before ++ fs.flatten).Boundary b := by
  induction fs generalizing before with
  | nil =>
    obtain rfl : b = before.bytes := by simpa [boundaries] using h
    exact ⟨Nat.le_refl _, Text.boundary_append _ _⟩
  | cons f rest ih =>
    rcases List.mem_cons.1 h with rfl | h
    · exact ⟨Nat.le_refl _, Text.boundary_append _ _⟩
    · obtain ⟨hle, hb⟩ := ih (before ++ f) (by simpa using h)
      simp only [Text.bytes_append] at hle
      exact ⟨by omega, by simpa using hb⟩

theorem ascending_boundaries (before : Text) (fs : List Text) :
    (boundaries before.bytes fs).Pairwise (· ≤ ·) := by
  induction fs generalizing before with
  | nil => simp [boundaries]
  | cons f rest ih =>
    have hrest := ih (before ++ f)
    rw [Text.bytes_append] at hrest
    refine List.pairwise_cons.2 ⟨fun b hb => ?_, hrest⟩
    rw [← Text.bytes_append] at hb
    have := (mem_boundaries (before ++ f) hb).1
    rw [Text.bytes_append] at this
    omega

theorem getLast?_boundaries (before : Text) (fs : List Text) :
    (boundaries before.bytes fs).getLast? = some (before ++ fs.flatten).bytes := by
  induction fs generalizing before with
  | nil => simp [boundaries]
  | cons f rest ih =>
    have hrest := ih (before ++ f)
    rw [Text.bytes_append] at hrest
    rw [boundaries, List.getLast?_cons, hrest]
    simp

theorem cuts_boundaries (fs : List Text) : Cuts fs.flatten (boundaries 0 fs) where
  first := by cases fs <;> rfl
  last := getLast?_boundaries [] fs
  ascending := ascending_boundaries [] fs
  boundary := fun _ hb => (mem_boundaries [] hb).2

theorem Cuts.exists_slice {t : Text} {bs : List Nat} (h : Cuts t bs) {a b : Nat}
    (hab : [a, b] <:+: bs) : ∃ f, t.slice? a b = some f := by
  have hle : a ≤ b := by
    have := h.ascending.sublist hab.sublist
    simpa using this
  have ha := h.boundary a (hab.subset (by simp))
  have hb := h.boundary b (hab.subset (by simp))
  exact ha.exists_slice hb hle

theorem flatten_cut (before : Text) {rest : Text} {bs : List Nat}
    (hasc : (before.bytes :: bs).Pairwise (· ≤ ·))
    (hlast : (before.bytes :: bs).getLast? = some (before ++ rest).bytes)
    (hb : ∀ b ∈ bs, (before ++ rest).Boundary b) :
    (cut (before ++ rest) (before.bytes :: bs)).flatten = rest := by
  induction bs generalizing before rest with
  | nil =>
    have hrest : rest.bytes = 0 := by simpa using hlast
    rw [Text.bytes_eq_zero.1 hrest]
    rfl
  | cons b bs ih =>
    obtain ⟨hle, hasc⟩ := List.pairwise_cons.1 hasc
    have hhi := (hb b (by simp)).le_bytes
    have hcut : (before ++ (rest ++ [])).Boundary b := by simpa using hb b (by simp)
    rw [Text.bytes_append] at hhi
    obtain ⟨f, more, rfl, rfl⟩ := hcut.split (hle b (by simp)) hhi
    have hmore : before ++ (f ++ more) = before ++ f ++ more := by simp
    have hnext : (cut (before ++ f ++ more) ((before ++ f).bytes :: bs)).flatten = more := by
      rw [hmore] at hlast hb
      rw [List.getLast?_cons_cons] at hlast
      refine ih (before ++ f) (by simpa using hasc) (by simpa using hlast) fun b hmem => ?_
      exact hb b (by simp [hmem])
    rw [cut, Text.slice_append, List.flatten_cons, hmore]
    rw [Text.bytes_append] at hnext
    rw [hnext]

theorem Cuts.flatten {t : Text} {bs : List Nat} (h : Cuts t bs) : (cut t bs).flatten = t := by
  cases bs with
  | nil => cases h.first
  | cons b bs =>
    obtain rfl : b = 0 := by simpa using h.first
    exact flatten_cut [] h.ascending h.last fun b hb => h.boundary b (by simp [hb])

end TagMarkup.Fragments
