import Mathlib.Data.List.Forall2
import TagMarkup.Proofs.Markup.Joining
import TagMarkup.Proofs.Markup.Values
import TagMarkup.Tag.Single

/-! How a text is split into groups of values: by the search for the separator that occurs next,
again and again, in every text outside the tags. The search ends unless a separator is empty
(`searches_end_iff`), and the rules of a tag never ask for one that is. Joined with the separators,
the groups are the text again (`Delimiters.splits_joined`). -/

namespace TagMarkup

namespace Text

/-- The text before and behind the first occurrence of `sep`. -/
def occurrence? (sep t : Text) : Option (Text × Text) :=
  let (before, rest) := splitBefore [sep] t
  if sep.isPrefixOf rest then some (before, rest.drop sep.length) else none

variable {sep t : Text}

theorem occurrence?_append (sep t : Text) : occurrence? sep (sep ++ t) = some ([], t) := by
  have hsplit : splitBefore [sep] (sep ++ t) = ([], sep ++ t) := by
    cases h : sep ++ t with
    | nil => rfl
    | cons c rest =>
      rw [splitBefore, if_pos]
      rw [beginsAny_eq_true, ← h]
      exact ⟨sep, List.mem_singleton_self _, List.prefix_append _ _⟩
  simp [occurrence?, hsplit]

theorem occurrence?_nil (h : sep ≠ []) : occurrence? sep [] = none := by
  simp [occurrence?, splitBefore, h]

theorem occurrence?_cons {c : Char} (h : ¬ sep <+: c :: t) :
    occurrence? sep (c :: t) = (occurrence? sep t).map fun (before, behind) =>
      (c :: before, behind) := by
  have hbegins : beginsAny [sep] (c :: t) ≠ true := by
    rw [Ne, beginsAny_eq_true]
    rintro ⟨mark, hmark, hp⟩
    exact h (List.mem_singleton.1 hmark ▸ hp)
  rw [occurrence?, splitBefore, if_neg hbegins, occurrence?]
  dsimp only
  split <;> rfl

theorem isSome_occurrence?_nil (t : Text) : (occurrence? [] t).isSome := by
  rw [← List.nil_append t, occurrence?_append]
  rfl

end Text

/-- The separator that occurs next in a text, with the text before and behind it. At one place the
separator of groups comes first. -/
def nextSeparator? (group value : Option Text) (t : Text) : Option (Text × Level × Text) :=
  match group.bind (Text.occurrence? · t), value.bind (Text.occurrence? · t) with
  | some (before, behind), some (before', behind') =>
    if before.bytes ≤ before'.bytes then some (before, .group, behind)
    else some (before', .value, behind')
  | some (before, behind), none => some (before, .group, behind)
  | none, some (before, behind) => some (before, .value, behind)
  | none, none => none

/-- The search for separators in a text comes to an end with the pieces. -/
inductive Searches (group value : Option Text) : Text → List Piece → Prop
  | last {t : Text} (found : nextSeparator? group value t = none) :
    Searches group value t [.kept t]
  | cut {t before behind : Text} {level : Level} {ps : List Piece}
    (found : nextSeparator? group value t = some (before, level, behind))
    (more : Searches group value behind ps) :
    Searches group value t (.kept before :: .cut level :: ps)

/-- The search in every text outside the tags of a text gives the pieces, or in all of a text that
cannot be read. -/
def SearchesTopLevel (d : Delimiters) (group value : Option Text) (t : Text) (ps : List Piece) :
    Prop :=
  match tokenize d t with
  | .ok tokens => ∃ parts, ps = parts.flatten ∧ List.Forall₂ (fun (token : Token) part =>
      if token.depth = 0 ∧ token.kind = .text then Searches group value token.text part
      else part = [.kept token.text]) tokens parts
  | .error _ => Searches group value t ps

namespace Cuts

variable {c : Cuts} {t rest : Text} {level : Level}

theorem at?_eq_none : c.at? t = none ↔ ∀ level sep, c.mark? level = some sep → ¬ sep <+: t := by
  constructor
  · intro h level sep hsep hp
    unfold at? at h
    split at h
    · cases h
    · next hgroup =>
      have hbegins : sep.isPrefixOf t = true := List.isPrefixOf_iff_prefix.2 hp
      rw [Option.map_eq_none_iff] at h
      cases level with
      | group => exact absurd hbegins (Option.filter_eq_none_iff.1 hgroup sep hsep)
      | value => exact absurd hbegins (Option.filter_eq_none_iff.1 h sep hsep)
  · intro h
    cases hat : c.at? t with
    | none => rfl
    | some found =>
      obtain ⟨sep, hsep, -, rfl⟩ := at?_eq_some hat
      exact absurd (List.prefix_append _ _) (h _ sep hsep)

theorem nextSeparator?_of_at? (h : c.at? t = some (level, rest)) :
    nextSeparator? c.group? c.value? t = some ([], level, rest) := by
  unfold at? at h
  split at h
  · next sep hsep =>
    cases h
    obtain ⟨hgroup, hp⟩ := Option.filter_eq_some_iff.1 hsep
    obtain ⟨rest, rfl⟩ := List.isPrefixOf_iff_prefix.1 hp
    rw [List.drop_left, nextSeparator?, hgroup, Option.bind_some, Text.occurrence?_append]
    cases c.value?.bind (Text.occurrence? · (sep ++ rest)) <;> simp
  · next hgroup =>
    obtain ⟨sep, hsep, heq⟩ := Option.map_eq_some_iff.1 h
    cases heq
    obtain ⟨hvalue, hp⟩ := Option.filter_eq_some_iff.1 hsep
    obtain ⟨rest, rfl⟩ := List.isPrefixOf_iff_prefix.1 hp
    rw [List.drop_left, nextSeparator?, hvalue, Option.bind_some, Text.occurrence?_append]
    cases hg : c.group? with
    | none => rfl
    | some group =>
      -- the separator of groups occurs later, if at all
      have hnot : ¬ group <+: sep ++ rest := fun hp =>
        Option.filter_eq_none_iff.1 hgroup group hg (List.isPrefixOf_iff_prefix.2 hp)
      obtain ⟨x, more, hmore⟩ : ∃ x more, sep ++ rest = x :: more := by
        refine List.exists_cons_of_ne_nil fun hnil => c.value_ne ?_
        rw [hvalue, (List.append_eq_nil_iff.1 hnil).1]
      rw [hmore] at hnot ⊢
      rw [Option.bind_some, Text.occurrence?_cons hnot]
      cases Text.occurrence? group more with
      | none => rfl
      | some found =>
        have hpos := Char.utf8Size_pos x
        exact if_neg (by rw [Text.bytes_cons, Text.bytes_nil]; omega)

theorem nextSeparator?_cons {x : Char} (h : c.at? (x :: t) = none) :
    nextSeparator? c.group? c.value? (x :: t) =
      (nextSeparator? c.group? c.value? t).map fun (before, found) => (x :: before, found) := by
  have hlater (level : Level) : (c.mark? level).bind (Text.occurrence? · (x :: t)) =
      ((c.mark? level).bind (Text.occurrence? · t)).map fun (before, behind) =>
        (x :: before, behind) := by
    cases hsep : c.mark? level with
    | none => rfl
    | some sep => exact Text.occurrence?_cons (at?_eq_none.1 h level sep hsep)
  have hgroup := hlater .group
  have hvalue := hlater .value
  simp only [mark?] at hgroup hvalue
  rw [nextSeparator?, nextSeparator?, hgroup, hvalue]
  cases c.group?.bind (Text.occurrence? · t) with
  | none => cases c.value?.bind (Text.occurrence? · t) <;> rfl
  | some found =>
    cases c.value?.bind (Text.occurrence? · t) with
    | none => rfl
    | some found' =>
      simp only [Option.map_some, Text.bytes_cons, Nat.add_le_add_iff_left]
      split <;> rfl

theorem nextSeparator?_nil (c : Cuts) : nextSeparator? c.group? c.value? [] = none := by
  have hnone (level : Level) : (c.mark? level).bind (Text.occurrence? · []) = none := by
    cases hsep : c.mark? level with
    | none => rfl
    | some sep =>
      refine Text.occurrence?_nil ?_
      rintro rfl
      cases level with
      | group => exact c.group_ne hsep
      | value => exact c.value_ne hsep
  have hgroup := hnone .group
  have hvalue := hnone .value
  simp only [mark?] at hgroup hvalue
  rw [nextSeparator?, hgroup, hvalue]

/-- The search comes to an end, with pieces that make the same groups as those of the cuts. -/
theorem searches (c : Cuts) (t : Text) : ∃ ps, Searches c.group? c.value? t ps := by
  fun_induction Cuts.pieces c t with
  | case1 t level rest hat ih =>
    obtain ⟨ps, hps⟩ := ih
    exact ⟨_, .cut (nextSeparator?_of_at? hat) hps⟩
  | case2 hat => exact ⟨_, .last c.nextSeparator?_nil⟩
  | case3 x rest hat ih =>
    obtain ⟨ps, hps⟩ := ih
    have hnext := nextSeparator?_cons hat
    cases hps with
    | last found =>
      rw [found] at hnext
      exact ⟨_, .last hnext⟩
    | cut found more =>
      rw [found] at hnext
      exact ⟨_, .cut hnext more⟩

theorem ofPieces_of_searches {ps : List Piece} (h : Searches c.group? c.value? t ps)
    (qs : List Piece) :
    Groups.ofPieces (ps ++ qs) = Groups.ofPieces (c.pieces t ++ qs) := by
  fun_induction Cuts.pieces c t generalizing ps with
  | case1 t level rest hat ih =>
    have hnext := nextSeparator?_of_at? hat
    cases h with
    | last found =>
      rw [hnext] at found
      cases found
    | cut found more =>
      rw [hnext] at found
      cases found
      exact Groups.ofPieces_append_congr [.cut level] (ih more)
  | case2 hat =>
    cases h with
    | last => rfl
    | cut found =>
      rw [c.nextSeparator?_nil] at found
      cases found
  | case3 x rest hat ih =>
    have hnext := nextSeparator?_cons hat
    cases h with
    | last found =>
      rw [hnext, Option.map_eq_none_iff] at found
      have hrest := Groups.ofPieces_append_congr [.kept [x]] (ih (.last found))
      simpa using hrest
    | cut found more =>
      rw [hnext] at found
      obtain ⟨⟨before, level, behind⟩, hfound, heq⟩ := Option.map_eq_some_iff.1 found
      cases heq
      have hrest := Groups.ofPieces_append_congr [.kept [x]] (ih (.cut hfound more))
      simpa using hrest

end Cuts

section Search

variable {group value : Option Text} {t : Text}

theorem nextSeparator?_eq_none : nextSeparator? group value t = none ↔
    group.bind (Text.occurrence? · t) = none ∧ value.bind (Text.occurrence? · t) = none := by
  unfold nextSeparator?
  split
  · split <;> simp_all
  all_goals simp_all

/-- The search comes to an end unless a separator is empty. -/
theorem searches_end_iff :
    (∃ ps, Searches group value t ps) ↔ group ≠ some [] ∧ value ≠ some [] := by
  constructor
  · rintro ⟨ps, h⟩
    induction h with
    | cut _ _ ih => exact ih
    | @last t found =>
      -- an empty separator occurs in every text
      have hempty : Text.occurrence? [] t ≠ none :=
        Option.isSome_iff_ne_none.1 (Text.isSome_occurrence?_nil t)
      obtain ⟨hgroup, hvalue⟩ := nextSeparator?_eq_none.1 found
      constructor
      · rintro rfl
        exact hempty hgroup
      · rintro rfl
        exact hempty hvalue
  · rintro ⟨hgroup, hvalue⟩
    exact Cuts.searches ⟨group, value, hgroup, hvalue⟩ t

end Search

section TopLevel

variable {d : Delimiters} {c : Cuts} {t : Text} {level : Level} {ps : List Piece}

theorem Cuts.searchesTopLevel (c : Cuts) (d : Delimiters) (t : Text) :
    ∃ ps, SearchesTopLevel d c.group? c.value? t ps := by
  unfold SearchesTopLevel
  split
  · next tokens htokens =>
    clear htokens
    suffices h : ∃ parts, List.Forall₂ (fun (token : Token) part =>
        if token.depth = 0 ∧ token.kind = .text then Searches c.group? c.value? token.text part
        else part = [.kept token.text]) tokens parts by
      obtain ⟨parts, hparts⟩ := h
      exact ⟨_, parts, rfl, hparts⟩
    induction tokens with
    | nil => exact ⟨[], .nil⟩
    | cons token tokens ih =>
      obtain ⟨parts, hparts⟩ := ih
      by_cases htop : token.depth = 0 ∧ token.kind = .text
      · obtain ⟨part, hpart⟩ := c.searches token.text
        exact ⟨part :: parts, .cons (by rwa [if_pos htop]) hparts⟩
      · exact ⟨[.kept token.text] :: parts, .cons (by rw [if_neg htop]) hparts⟩
  · exact c.searches t

theorem SearchesTopLevel.splitGroups_eq (h : SearchesTopLevel d c.group? c.value? t ps) :
    splitGroups d c t = (Groups.ofPieces ps).toList := by
  unfold SearchesTopLevel at h
  split at h
  · next tokens htokens =>
    obtain ⟨parts, rfl, hparts⟩ := h
    rw [splitGroups, topLevelPieces_of_tokenize htokens]
    congr 1
    clear htokens
    induction hparts with
    | nil => rfl
    | @cons token part tokens parts hpart _ ih =>
      rw [List.flatMap_cons, List.flatten_cons, Groups.ofPieces_append_congr _ ih]
      unfold Token.pieces
      split at hpart
      · next htop =>
        rw [if_pos htop]
        exact (Cuts.ofPieces_of_searches hpart _).symm
      · next htop => rw [if_neg htop, hpart]
  · next e herror =>
    have hpieces := Cuts.ofPieces_of_searches h []
    rw [List.append_nil, List.append_nil] at hpieces
    rw [splitGroups, topLevelPieces, herror, hpieces]

/-- Nothing is cut by a separator that is missing. -/
theorem Cuts.mark?_of_mem_pieces (h : .cut level ∈ c.pieces t) : c.mark? level ≠ none := by
  fun_induction Cuts.pieces c t with
  | case1 t level' rest hat ih =>
    rcases List.mem_cons.1 h with h | h
    · cases h
      obtain ⟨sep, hsep, -⟩ := Cuts.at?_eq_some hat
      rw [hsep]
      exact Option.some_ne_none sep
    · exact ih h
  | case2 => cases h
  | case3 x rest hat ih =>
    rcases List.mem_cons.1 h with h | h
    · cases h
    · exact ih h

theorem mark?_of_mem_topLevelPieces (h : .cut level ∈ topLevelPieces d c t) :
    c.mark? level ≠ none := by
  unfold topLevelPieces at h
  split at h
  · obtain ⟨token, -, hmem⟩ := List.mem_flatMap.1 h
    split at hmem
    · exact Cuts.mark?_of_mem_pieces hmem
    · cases List.mem_singleton.1 hmem
  · exact Cuts.mark?_of_mem_pieces h

end TopLevel

namespace Groups

variable {ps : List Piece}

theorem groups_eq_nil (h : .cut .group ∉ ps) : (ofPieces ps).groups = [] := by
  induction ps with
  | nil => rfl
  | cons p ps ih =>
    rw [List.mem_cons, not_or] at h
    cases p with
    | kept t => exact ih h.2
    | cut level =>
      cases level with
      | value => exact ih h.2
      | group => exact absurd rfl h.1

theorem eq_singleton_of_mem (h : .cut .value ∉ ps) :
    ∀ values ∈ (ofPieces ps).toList, ∃ v, values = [v] := by
  induction ps with
  | nil =>
    intro values hvalues
    exact ⟨[], List.mem_singleton.1 hvalues⟩
  | cons p ps ih =>
    rw [List.mem_cons, not_or] at h
    have hrest := ih h.2
    have hfirst := hrest _ List.mem_cons_self
    intro values hvalues
    cases p with
    | kept t =>
      rcases List.mem_cons.1 hvalues with rfl | hvalues
      · obtain ⟨v, hv⟩ := hfirst
        exact ⟨t ++ (ofPieces ps).value, by rw [ofPieces_kept, (List.cons.inj hv).2]⟩
      · exact hrest values (List.mem_cons_of_mem _ hvalues)
    | cut level =>
      cases level with
      | value => exact absurd rfl h.1
      | group =>
        rcases List.mem_cons.1 hvalues with rfl | hvalues
        · exact ⟨[], rfl⟩
        · exact hrest values hvalues

theorem ne_nil_of_mem (ps : List Piece) : ∀ values ∈ (ofPieces ps).toList, values ≠ [] := by
  induction ps with
  | nil =>
    intro values hvalues
    rw [List.mem_singleton.1 hvalues]
    exact List.cons_ne_nil _ _
  | cons p ps ih =>
    intro values hvalues
    rcases List.mem_cons.1 hvalues with rfl | hvalues
    · exact List.cons_ne_nil _ _
    · cases p with
      | kept t => exact ih values (List.mem_cons_of_mem _ hvalues)
      | cut level =>
        cases level with
        | value => exact ih values (List.mem_cons_of_mem _ hvalues)
        | group => exact ih values hvalues

end Groups

/-- The separator that a rule asks for. -/
def SplitRule.separator? (d : Delimiters) : SplitRule → Level → Option Text
  | template, level => some (d.sepOf level)
  | custom group _, .group => group
  | custom _ value, .value => value

/-- A rule cuts at the separators that it asks for, but for an empty one. -/
theorem SplitRule.mark?_cuts {d : Delimiters} {rule : SplitRule} {level : Level} {sep : Text} :
    (rule.cuts d).mark? level = some sep ↔ rule.separator? d level = some sep ∧ sep ≠ [] := by
  cases rule with
  | template =>
    refine ⟨fun h => ?_, fun h => ?_⟩
    · obtain rfl := Cuts.ofDelimiters_markedBy d level sep h
      exact ⟨rfl, d.sepOf_ne_nil level⟩
    · obtain rfl := Option.some.inj h.1
      cases level <;> rfl
  | custom group value =>
    have hfilter (t : Option Text) :
        t.filter (fun s => !s.isEmpty) = some sep ↔ t = some sep ∧ sep ≠ [] := by
      rw [Option.filter_eq_some_iff]
      simp
    cases level with
    | group => exact hfilter group
    | value => exact hfilter value

/-- The parts of a tag that hold its values: its header, if it has values, and its body. -/
def SingleTag.parts (tag : SingleTag) : List Text := tag.header?.toList ++ tag.body?.toList

theorem SingleTag.groups_call (d : Delimiters) (rule : SplitRule) (tag : SingleTag) :
    (tag.call d rule).groups = tag.parts.flatMap (splitGroups d (rule.cuts d)) := by
  obtain ⟨key, header?, body?, text⟩ := tag
  cases header? <;> cases body? <;> simp [call, parts]

namespace Delimiters

/-- A text is split at the cuts into groups with values in them, and joined these are the text
again. -/
structure Splits (d : Delimiters) (c : Cuts) (t : Text) : Prop where
  /-- The search for separators ends, and it finds what the groups are made of. -/
  ends : ∃ ps, SearchesTopLevel d c.group? c.value? t ps
  groups : ∀ ps, SearchesTopLevel d c.group? c.value? t ps →
    splitGroups d c t = (Groups.ofPieces ps).toList
  groups_ne_nil : splitGroups d c t ≠ []
  values_ne_nil : ∀ values ∈ splitGroups d c t, values ≠ []
  /-- Nothing is split by a separator that is missing. -/
  ungrouped : c.group? = none → ∃ values, splitGroups d c t = [values]
  unvalued : c.value? = none → ∀ values ∈ splitGroups d c t, ∃ v, values = [v]
  joined : ∀ group value,
    Groups.join (c.group?.getD group) (c.value?.getD value) (splitGroups d c t) = t

/-- Splitting ends for all separators that are not empty, and joining undoes it. What a tag says is
split in no other way, whatever separators a rule asks for. -/
theorem splits_joined (d : Delimiters) :
    (∀ c t, d.Splits c t) ∧
      (∀ group value t, (∃ ps, Searches group value t ps) ↔ group ≠ some [] ∧ value ≠ some []) ∧
      ∀ (rule : SplitRule) (tag : SingleTag),
        (tag.call d rule).groups = tag.parts.flatMap (splitGroups d (rule.cuts d)) ∧
          ∀ level sep, (rule.cuts d).mark? level = some sep ↔
            rule.separator? d level = some sep ∧ sep ≠ [] := by
  refine ⟨fun c t => ?_, fun _ _ _ => searches_end_iff, fun rule tag =>
    ⟨tag.groups_call d rule, fun _ _ => SplitRule.mark?_cuts⟩⟩
  have hmissing {level : Level} (h : c.mark? level = none) :
      .cut level ∉ topLevelPieces d c t := fun hmem => mark?_of_mem_topLevelPieces hmem h
  exact {
    ends := c.searchesTopLevel d t
    groups := fun _ h => h.splitGroups_eq
    groups_ne_nil := List.cons_ne_nil _ _
    values_ne_nil := Groups.ne_nil_of_mem _
    ungrouped := fun h => ⟨_, congrArg (List.cons _) (Groups.groups_eq_nil (hmissing h))⟩
    unvalued := fun h => Groups.eq_singleton_of_mem (hmissing h)
    joined := fun group value =>
      join_splitGroups (c.markedBy_getD fun level => if level = .group then group else value) d t }

end Delimiters

end TagMarkup
