import TagMarkup.Token.Lexing

/-! Text split into groups of values. Separators count only outside tags, so a nested tag stays
whole in one value; a text that cannot be read is split at every separator. There is always at
least one group, and a group has at least one value. -/

namespace TagMarkup

/-- How the values of a tag are set apart: by the template's own separators, or by separators of
its own, of which each may be missing. -/
inductive SplitRule
  | template
  | custom (group value : Option Text)
  deriving DecidableEq, Repr

/-- The separators that end a group and a value. Neither is the empty text. -/
structure Cuts where
  group? : Option Text
  value? : Option Text
  group_ne : group? ≠ some []
  value_ne : value? ≠ some []

namespace Cuts

theorem filter_ne_nil (t : Option Text) : t.filter (fun s => !s.isEmpty) ≠ some [] := by
  cases t with
  | none => simp
  | some t => cases t <;> simp [Option.filter]

/-- The cuts at two texts, of which an empty one never cuts. -/
def ofTexts (group value : Option Text) : Cuts :=
  ⟨group.filter fun s => !s.isEmpty, value.filter fun s => !s.isEmpty, filter_ne_nil _,
    filter_ne_nil _⟩

def ofDelimiters (d : Delimiters) : Cuts :=
  ⟨some d.sep, some d.subSep, fun h => d.sep_ne_nil (Option.some.inj h),
    fun h => d.subSep_ne_nil (Option.some.inj h)⟩

def mark? (c : Cuts) : Level → Option Text
  | .group => c.group?
  | .value => c.value?

/-- The level of the separator at the front of a text and the text after it. A group's separator
wins over a value's. -/
def at? (c : Cuts) (t : Text) : Option (Level × Text) :=
  match c.group?.filter (·.isPrefixOf t) with
  | some sep => some (.group, t.drop sep.length)
  | none => (c.value?.filter (·.isPrefixOf t)).map fun sep => (.value, t.drop sep.length)

theorem at?_eq_some {c : Cuts} {t rest : Text} {level : Level} (h : c.at? t = some (level, rest)) :
    ∃ sep, c.mark? level = some sep ∧ sep ≠ [] ∧ t = sep ++ rest := by
  unfold at? at h
  split at h
  · next sep hs =>
    cases h
    obtain ⟨hg, hp⟩ := Option.filter_eq_some_iff.1 hs
    obtain ⟨rest, rfl⟩ := List.isPrefixOf_iff_prefix.1 hp
    exact ⟨sep, hg, fun he => c.group_ne (he ▸ hg), by simp⟩
  · obtain ⟨sep, hs, he⟩ := Option.map_eq_some_iff.1 h
    cases he
    obtain ⟨hv, hp⟩ := Option.filter_eq_some_iff.1 hs
    obtain ⟨rest, rfl⟩ := List.isPrefixOf_iff_prefix.1 hp
    exact ⟨sep, hv, fun he => c.value_ne (he ▸ hv), by simp⟩

end Cuts

/-- A part of a text to split: characters to keep, or a separator. -/
inductive Piece
  | kept (t : Text)
  | cut (level : Level)
  deriving DecidableEq, Repr

namespace Cuts

def pieces (c : Cuts) (t : Text) : List Piece :=
  match _ : c.at? t with
  | some (level, rest) => .cut level :: c.pieces rest
  | none =>
    match t with
    | [] => []
    | x :: rest => .kept [x] :: c.pieces rest
termination_by t.length
decreasing_by
  · obtain ⟨sep, _, hne, rfl⟩ := at?_eq_some ‹_›
    have := List.length_pos_iff.2 hne
    simp only [List.length_append]
    omega
  · simp

end Cuts

/-- Groups of values in the making, with the first value of the first group set apart. There is
always one group with one value. -/
structure Groups where
  value : Text
  values : List Text
  groups : List (List Text)

namespace Groups

def toList (g : Groups) : List (List Text) := (g.value :: g.values) :: g.groups

/-- The groups that a piece in front makes of those after it. -/
def push (g : Groups) : Piece → Groups
  | .kept t => { g with value := t ++ g.value }
  | .cut .value => ⟨[], g.value :: g.values, g.groups⟩
  | .cut .group => ⟨[], [], g.toList⟩

def ofPieces (ps : List Piece) : Groups := ps.foldr (fun p g => g.push p) ⟨[], [], []⟩

/-- The values of each group joined with one text and the groups with another. -/
def join (group value : Text) (gs : List (List Text)) : Text :=
  group.intercalate (gs.map value.intercalate)

end Groups

/-- The pieces of a text that is cut at separators outside its tags. -/
def topLevelPieces (d : Delimiters) (c : Cuts) (t : Text) : List Piece :=
  match tokenize d t with
  | .ok tokens => tokens.flatMap fun token =>
      if token.depth = 0 ∧ token.kind = .text then c.pieces token.text else [.kept token.text]
  | .error _ => c.pieces t

def splitGroups (d : Delimiters) (c : Cuts) (t : Text) : List (List Text) :=
  (Groups.ofPieces (topLevelPieces d c t)).toList

/-- The groups of values of a text that uses the template's separators. -/
def templateGroups (d : Delimiters) (t : Text) : List (List Text) :=
  splitGroups d (.ofDelimiters d) t

/-- The cuts of a rule in a template with these delimiters. -/
def SplitRule.cuts (d : Delimiters) : SplitRule → Cuts
  | .template => .ofDelimiters d
  | .custom group value => .ofTexts group value

end TagMarkup
