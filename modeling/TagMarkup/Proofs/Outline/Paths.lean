import Mathlib.Data.List.Induction
import TagMarkup.Proofs.Outline.Nesting

/-! The paths of the nodes in an outline. A path is found by climbing from a node to the whole text,
and a node by going down a path from the whole text, each time along the numbers of the nodes around
and inside a node. Both ways are inverse to each other, and the order of the paths is the order of
the numbers (`Outline.charted`). -/

namespace TagMarkup

namespace Forest

universe u

variable {α : Type u} {f : Forest α} {first index i k l n : Nat} {path p q : Path}

theorem isSome_path? : (f.path? index k).isSome ↔ k < f.size := by
  induction f generalizing index k with
  | nil => simp [path?, size]
  | cons a inner rest ihi ihr =>
    cases k with
    | zero => simp [path?, size]
    | succ k =>
      rw [path?, size]
      split
      · next hin =>
        rw [Option.isSome_map, ihi]
        omega
      · next hin =>
        rw [ihr]
        omega

theorem path?_of_number? (h : f.number? first i path = some n) (index : Nat) :
    first ≤ n ∧ f.path? index (n - first) = some ((index + i) :: path) := by
  induction f generalizing first i path index with
  | nil => cases h
  | cons a inner rest ihi ihr =>
    cases i with
    | zero =>
      cases path with
      | nil =>
        obtain rfl : first = n := Option.some.inj h
        exact ⟨Nat.le_refl _, by simp [path?]⟩
      | cons j path =>
        obtain ⟨hle, hpath⟩ := ihi h 0
        have hlt : n - (first + 1) < inner.size :=
          isSome_path?.1 (Option.isSome_iff_exists.2 ⟨_, hpath⟩)
        refine ⟨by omega, ?_⟩
        rw [show n - first = n - (first + 1) + 1 by omega, path?, if_pos hlt, hpath]
        simp
    | succ i =>
      obtain ⟨hle, hpath⟩ := ihr h (index + 1)
      refine ⟨by omega, ?_⟩
      rw [show n - first = inner.size + (n - (first + 1 + inner.size)) + 1 by omega, path?,
        if_neg (by omega), Nat.add_sub_cancel_left, hpath, Nat.add_right_comm, Nat.add_assoc]

theorem number?_of_path? (h : f.path? index k = some path) (first : Nat) :
    ∃ i more, path = (index + i) :: more ∧ f.number? first i more = some (first + k) := by
  induction f generalizing index k path first with
  | nil => cases h
  | cons a inner rest ihi ihr =>
    cases k with
    | zero =>
      obtain rfl : [index] = path := Option.some.inj h
      exact ⟨0, [], rfl, rfl⟩
    | succ k =>
      rw [path?] at h
      split at h
      · obtain ⟨inside, hinside, rfl⟩ := Option.map_eq_some_iff.1 h
        obtain ⟨j, more, rfl, hnumber⟩ := ihi hinside (first + 1)
        rw [Nat.zero_add]
        exact ⟨0, j :: more, rfl, hnumber.trans (congrArg some (by omega))⟩
      · obtain ⟨i, more, rfl, hnumber⟩ := ihr h (first + 1 + inner.size)
        refine ⟨i + 1, more, by rw [Nat.add_assoc, Nat.add_comm 1], ?_⟩
        exact hnumber.trans (congrArg some (by omega))

/-- A tree comes before those inside it, and those before the next one. -/
theorem path?_lt (hp : f.path? index k = some p) (hq : f.path? index l = some q) (h : k < l) :
    p < q := by
  induction f generalizing index k l p q with
  | nil => cases hp
  | cons a inner rest ihi ihr =>
    have hinside {n : Nat} {path : Path} (hin : n < inner.size)
        (hpath : (cons a inner rest).path? index (n + 1) = some path) :
        ∃ more, inner.path? 0 n = some more ∧ path = index :: more := by
      rw [path?, if_pos hin] at hpath
      obtain ⟨more, hmore, rfl⟩ := Option.map_eq_some_iff.1 hpath
      exact ⟨more, hmore, rfl⟩
    have hbehind {n : Nat} {path : Path} (hin : ¬ n < inner.size)
        (hpath : (cons a inner rest).path? index (n + 1) = some path) :
        rest.path? (index + 1) (n - inner.size) = some path ∧
          ∃ i more, path = (index + 1 + i) :: more := by
      rw [path?, if_neg hin] at hpath
      obtain ⟨i, more, hmore, -⟩ := number?_of_path? hpath 0
      exact ⟨hpath, i, more, hmore⟩
    cases l with
    | zero => exact absurd h (Nat.not_lt_zero k)
    | succ l =>
      by_cases hl : l < inner.size
      · obtain ⟨below, hbelow, rfl⟩ := hinside hl hq
        cases k with
        | zero =>
          obtain rfl : [index] = p := Option.some.inj hp
          obtain ⟨j, more, rfl, -⟩ := number?_of_path? hbelow 0
          exact List.cons_lt_cons_iff.2 (.inr ⟨rfl, List.nil_lt_cons _ _⟩)
        | succ k =>
          obtain ⟨above, habove, rfl⟩ := hinside (by omega) hp
          exact List.cons_lt_cons_iff.2 (.inr ⟨rfl, ihi habove hbelow (by omega)⟩)
      · obtain ⟨hq, j, more, rfl⟩ := hbehind hl hq
        cases k with
        | zero =>
          obtain rfl : [index] = p := Option.some.inj hp
          exact List.cons_lt_cons_iff.2 (.inl (by omega))
        | succ k =>
          by_cases hk : k < inner.size
          · obtain ⟨above, -, rfl⟩ := hinside hk hp
            exact List.cons_lt_cons_iff.2 (.inl (by omega))
          · exact ihr (hbehind hk hp).1 hq (by omega)

/-- The outermost trees are numbered upwards. -/
theorem pairwise_numbers (first : Nat) (f : Forest α) : (f.numbers first).Pairwise (· < ·) := by
  have hle (f : Forest α) (first : Nat) : ∀ n ∈ f.numbers first, first ≤ n := by
    induction f generalizing first with
    | nil =>
      intro n hn
      cases hn
    | cons a inner rest _ ih =>
      intro n hn
      rcases List.mem_cons.1 hn with rfl | hn
      · exact Nat.le_refl _
      · have := ih _ n hn
        omega
  induction f generalizing first with
  | nil => exact .nil
  | cons a inner rest _ ih =>
    refine List.pairwise_cons.2 ⟨fun n hn => ?_, ih _⟩
    have := hle rest _ n hn
    omega

end Forest

namespace Outline

/-- The number of the node at a place inside a node. -/
def child? (o : Outline) (n i : Nat) : Option Nat := (o.node? n).bind (·.children[i]?)

/-- The place of a node among those inside another one. -/
def place? (o : Outline) (outer n : Nat) : Option Nat :=
  (o.node? outer).bind (·.children.idxOf? n)

/-- To climb from a node along the numbers of the nodes around it, with the place in each of them,
if there is one, comes to an end with the path. -/
inductive Climbs (o : Outline) : Nat → Path → Prop
  | top {n : Nat} (outermost : (o.node? n).bind Node.parent? = none) : Climbs o n []
  | up {n outer : Nat} {path : Path} (around : (o.node? n).bind Node.parent? = some outer)
    (more : Climbs o outer path) : Climbs o n (path ++ (o.place? outer n).toList)

variable {o : Outline} {around first i n : Nat} {f : Forest Tag} {path path' : Path}

theorem Climbs.unique (h : o.Climbs n path) (h' : o.Climbs n path') : path = path' := by
  induction h generalizing path' with
  | top outermost =>
    cases h' with
    | top => rfl
    | up around =>
      rw [outermost] at around
      cases around
  | up around _ ih =>
    cases h' with
    | top outermost =>
      rw [outermost] at around
      cases around
    | up around' more =>
      obtain rfl := Option.some.inj (around.symm.trans around')
      rw [ih more]

namespace Places

/-- To go down a path through a forest is to go along the numbers of the nodes inside each node. -/
theorem number?_eq (h : o.Places around first f) :
    f.number? first i path = (f.numbers first)[i]?.bind fun n => path.foldlM o.child? n := by
  induction f generalizing around first i path with
  | nil => rfl
  | cons tag inner rest ihi ihr =>
    cases i with
    | succ i => exact ihr h.behind
    | zero =>
      cases path with
      | nil => rfl
      | cons j path =>
        have hchild : o.child? first j = (inner.numbers (first + 1))[j]? := by
          rw [child?, h.head]
          rfl
        show inner.number? (first + 1) j path = (o.child? first j).bind fun n => path.foldlM _ n
        rw [hchild, ihi h.inside]

/-- What is inside a node is a forest again. -/
theorem children (h : o.Places around first f) (hfirst : first ≤ n) (hlast : n < first + f.size) :
    ∃ inner, (o.node? n).map Node.children = some (inner.numbers (n + 1)) ∧
      o.Places n (n + 1) inner := by
  induction f generalizing around first with
  | nil =>
    rw [Forest.size] at hlast
    omega
  | cons tag inner rest ihi ihr =>
    rw [Forest.size] at hlast
    by_cases hhead : n = first
    · subst hhead
      exact ⟨inner, congrArg (Option.map Node.children) h.head, h.inside⟩
    by_cases hin : n < first + 1 + inner.size
    · exact ihi h.inside (by omega) hin
    · exact ihr h.behind (by omega) (by omega)

end Places

theorem isSome_node? : (o.node? n).isSome ↔ n ≤ o.size := by
  rw [node?, isSome_getElem?, length_nodes, Nat.lt_succ_iff]

theorem isSome_path? : (o.path? n).isSome ↔ n ≤ o.size := by
  cases n with
  | zero => exact iff_of_true rfl (Nat.zero_le _)
  | succ n => exact Forest.isSome_path?.trans Nat.succ_le_iff.symm

theorem number?_eq_foldlM (o : Outline) (path : Path) :
    o.number? path = path.foldlM o.child? 0 := by
  cases path with
  | nil => rfl
  | cons i path => exact o.places_tags.number?_eq

theorem path?_eq_some_iff : o.path? n = some path ↔ o.number? path = some n := by
  constructor
  · intro h
    cases n with
    | zero =>
      obtain rfl : [] = path := Option.some.inj h
      rfl
    | succ n =>
      obtain ⟨i, more, rfl, hnumber⟩ := Forest.number?_of_path? h 1
      rw [Nat.zero_add, Nat.add_comm n]
      exact hnumber
  · intro h
    cases path with
    | nil =>
      obtain rfl : 0 = n := Option.some.inj h
      rfl
    | cons i path =>
      obtain ⟨hle, hpath⟩ := Forest.path?_of_number? h 0
      rw [Nat.zero_add] at hpath
      rwa [← Nat.sub_add_cancel hle]

/-- The node at a place inside another one has that one around it, and that place in it. -/
theorem around_of_child? {outer : Nat} (h : o.child? outer i = some n) :
    (o.node? n).bind Node.parent? = some outer ∧ o.place? outer n = some i := by
  obtain ⟨found, hfound, hget⟩ := Option.bind_eq_some_iff.1 h
  have hle : outer ≤ o.size := isSome_node?.1 (by rw [hfound]; rfl)
  obtain ⟨inner, hchildren, hplaces⟩ : ∃ inner,
      (o.node? outer).map Node.children = some (inner.numbers (outer + 1)) ∧
        o.Places outer (outer + 1) inner := by
    cases outer with
    | zero => exact ⟨o.tags, rfl, o.places_tags⟩
    | succ outer => exact o.places_tags.children (Nat.succ_pos _) (by unfold size at hle; omega)
  rw [hfound] at hchildren
  have hnumbers : found.children = inner.numbers (outer + 1) := Option.some.inj hchildren
  obtain ⟨hlt, hn⟩ := List.getElem?_eq_some_iff.1 hget
  constructor
  · obtain ⟨-, -, other, hother, hparent⟩ :=
      hplaces.of_mem_numbers (hnumbers ▸ List.mem_of_getElem? hget)
    rw [hother]
    exact hparent
  · -- the numbers go up, so that the place of a number is the only one
    have hnodup : found.children.Nodup := by
      rw [hnumbers]
      exact (inner.pairwise_numbers _).imp Nat.ne_of_lt
    rw [place?, hfound, Option.bind_some, List.idxOf?_eq_some_iff]
    refine ⟨hlt, by simp [hn], fun j hj => ?_⟩
    have hne := (List.pairwise_iff_getElem.1 hnodup) j i (by omega) hlt hj
    rw [hn] at hne
    simpa using hne

theorem climbs_of_number? (h : o.number? path = some n) : o.Climbs n path := by
  induction path using List.reverseRecOn generalizing n with
  | nil =>
    obtain rfl : 0 = n := Option.some.inj h
    exact .top rfl
  | append_singleton path i ih =>
    rw [number?_eq_foldlM, List.foldlM_append] at h
    obtain ⟨outer, houter, hchild⟩ := Option.bind_eq_some_iff.1 h
    rw [← number?_eq_foldlM] at houter
    obtain ⟨haround, hplace⟩ := around_of_child? (by simpa using hchild)
    have hup := Climbs.up haround (ih houter)
    rwa [hplace] at hup

theorem climbs_iff : o.Climbs n path ↔ path = (o.path? n).getD [] := by
  have hclimbs : o.Climbs n ((o.path? n).getD []) := by
    cases hpath : o.path? n with
    | some found => exact climbs_of_number? (path?_eq_some_iff.1 hpath)
    | none =>
      have hnode : o.node? n = none := by
        rw [← Option.not_isSome_iff_eq_none, isSome_node?, ← isSome_path?, hpath]
        simp
      exact .top (by rw [hnode]; rfl)
  constructor
  · exact fun h => h.unique hclimbs
  · rintro rfl
    exact hclimbs

theorem lt_of_path?_lt {k : Nat} {p q : Path} (hp : o.path? n = some p) (hq : o.path? k = some q)
    (h : n < k) : p < q := by
  cases k with
  | zero => exact absurd h (Nat.not_lt_zero n)
  | succ k =>
    cases n with
    | zero =>
      obtain rfl : [] = p := Option.some.inj hp
      obtain ⟨i, more, rfl, -⟩ := Forest.number?_of_path? hq 0
      exact List.nil_lt_cons _ _
    | succ n => exact Forest.path?_lt hp hq (Nat.lt_of_succ_lt_succ h)

/-- The paths of an outline tell its nodes as their numbers do. -/
structure Charted (o : Outline) : Prop where
  /-- To climb from a number ends, with the path of the node or, where there is no node, with the
  empty path. -/
  climbs : ∀ n path, o.Climbs n path ↔ path = (o.path? n).getD []
  /-- The number at a path is found by going down from the whole text. -/
  descends : ∀ path, o.number? path = path.foldlM o.child? 0
  /-- Every node has a path. -/
  total : ∀ n, (o.path? n).isSome ↔ (o.node? n).isSome
  /-- A path leads to a node exactly if it is the path of the node, so that different nodes have
  different paths. -/
  inverse : ∀ n path, o.path? n = some path ↔ o.number? path = some n
  /-- The paths are in lexicographic order. -/
  ordered : ∀ n k p q, o.path? n = some p → o.path? k = some q → (p < q ↔ n < k)

theorem charted (o : Outline) : o.Charted := by
  refine ⟨fun _ _ => climbs_iff, number?_eq_foldlM o, fun n => ?_, fun _ _ => path?_eq_some_iff,
    fun n k p q hp hq => ⟨fun hlt => ?_, lt_of_path?_lt hp hq⟩⟩
  · rw [isSome_path?, isSome_node?]
  · rcases Nat.lt_trichotomy n k with h | rfl | h
    · exact h
    · obtain rfl := Option.some.inj (hp.symm.trans hq)
      exact absurd hlt (List.lt_irrefl p)
    · exact absurd (lt_of_path?_lt hq hp h) (List.lt_asymm hlt)

end Outline

end TagMarkup
