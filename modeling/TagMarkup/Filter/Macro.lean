import TagMarkup.Filter.Manager

/-! Filters that are defined by tags. A definition names a filter and gives its body, in which a
percent sign and the digits after it stand for a group of the tag that uses the filter; without
digits they stand for the first group. -/

namespace TagMarkup

namespace Macro

/-- The group that the digits after a percent sign number. A number that does not fit into 64 bits
numbers none. -/
def placeholder? (digits : Text) : Option Nat :=
  let n := digits.foldl (fun n c => n * 10 + (c.toNat - '0'.toNat)) 0
  if n < UInt64.size then some n else none

/-- A group of a tag with `sep` between its values, or nothing where there is no such group. -/
def insertion (call : Call) (sep digits : Text) : Text :=
  match placeholder? digits with
  | some i => call.joined i sep
  | none => []

/-- A text with every placeholder replaced, from the left. What has been put in is not looked at
again. -/
def fill (call : Call) (sep : Text) : Text → Text
  | [] => []
  | c :: rest =>
    if c = '%' then
      insertion call sep (rest.takeWhile Char.isDigit) ++
        fill call sep (rest.dropWhile Char.isDigit)
    else c :: fill call sep rest
termination_by t => t.length
decreasing_by
  · have := (List.dropWhile_suffix Char.isDigit (l := rest)).length_le
    simp only [List.length_cons]
    omega
  · simp

end Macro

/-- Whether a defined filter answers with its body or with a tag around it. -/
inductive MacroForm
  | body
  | tag
  deriving DecidableEq, Repr

/-- The body of a defined filter, in groups of values. -/
structure Macro where
  body : List (List Text)
  form : MacroForm
  deriving DecidableEq, Repr

namespace Macro

/-- The body for a tag that uses the filter. -/
def expand (m : Macro) (d : Delimiters) (call : Call) : Text :=
  let inner := Groups.join d.sep d.subSep (m.body.map (·.map (fill call d.subSep)))
  match m.form with
  | .body => inner
  | .tag => d.wrap inner

/-- The defined filter. Tags in what it answers are looked at in the next pass. -/
def filter (m : Macro) : Filter := fun call around =>
  .pending (m.expand around.info.delimiters call)

/-- The filter for definitions: the first value is the name, and the groups after the first are
the body. -/
def definer (form : MacroForm) (splitting : SplitRule) : Filter := fun call _ =>
  match call.value? 0 with
  | none | some [] => .refuse "definition has no name".toList
  | some name =>
    .install name (filter ⟨call.groups.drop 1, form⟩) splitting (.final [])

end Macro

/-- Adds a filter for definitions. -/
def Manager.addDefiner (m : Manager) (name : Text) (form : MacroForm)
    (splitting : SplitRule) : Manager :=
  m.install name (Macro.definer form splitting) splitting

/-- Adds the filter for definitions under its usual name. -/
def Manager.addStandardDefiner (m : Manager) : Manager :=
  m.addDefiner "def".toList .body .template

end TagMarkup
