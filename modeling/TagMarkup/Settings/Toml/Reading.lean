import TagMarkup.Settings.Toml.Statement

/-! The document that the statements of a TOML file build. -/

namespace TagMarkup.Settings.Toml

namespace Draft

/-- The draft after one more statement. -/
def next? (draft : Draft) : Statement → Option Draft
  | .header keys => draft.openTable? keys
  | .next keys => draft.openNext? keys
  | .assign keys item => draft.assign? keys item

end Draft

/-- The document in a file, if the file is well formed. -/
def read? (t : Text) : Option Document := do
  let statements ← statements? .empty (← lexemes? t)
  return (← statements.foldlM Draft.next? .empty).document

end TagMarkup.Settings.Toml
