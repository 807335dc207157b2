import TagMarkup.Settings.Document

/-! Documents in the making. A key is set once, and a table is opened once: the draft remembers how
each table came to be, and so which statements may still add to it. -/

namespace TagMarkup.Settings.Toml

/-- How a table came to be: by its own header, by the header of a table inside it, by a dotted key,
as an inline table, or as an array to which headers add tables. -/
inductive Origin
  | header
  | implied
  | dotted
  | inline
  | series
  deriving DecidableEq, Repr

/-- The table has no header of its own and may still grow. -/
def Origin.isHeaderless : Origin → Bool
  | .implied | .dotted => true
  | _ => false

/-- The document so far, the origins of its tables by path, and the table that the next
assignments add to. -/
structure Draft where
  document : Document
  origins : List (List Step × Origin)
  current : List Step

namespace Draft

def empty : Draft := ⟨.nil, [], []⟩

def origin? (draft : Draft) (path : List Step) : Option Origin :=
  (draft.origins.find? fun o => o.1 = path).map Prod.snd

/-- The draft with an item at the end of a path. -/
def put (draft : Draft) (path : List Step) (item : Item) : Draft :=
  { draft with document := draft.document.place item path }

/-- The table at the end of a path, or the array there, came to be in some way. -/
def note (draft : Draft) (path : List Step) (origin : Origin) : Draft :=
  { draft with origins := (path, origin) :: draft.origins }

/-- Goes into a table, which is made if it is missing, or into the last table of a series; `may`
says which tables may be gone into. The result is the path of the table with the draft. -/
def enter? (may : Origin → Bool) (made : Origin) (draft : Draft) (path : List Step) :
    Option (List Step × Draft) :=
  match draft.document.find? path with
  | none => some (path, (draft.put path (.table .nil)).note path made)
  | some (.scalar _) => none
  | some (.array es) =>
    if draft.origin? path = some .series then some (path ++ [.index (es.size - 1)], draft)
    else none
  | some (.table _) => if (draft.origin? path).any may then some (path, draft) else none

/-- Goes into one table after another, each inside the one before. -/
def enterAll? (may : Origin → Bool) (made : Origin) (draft : Draft) (base : List Step) :
    List Text → Option (List Step × Draft)
  | [] => some (base, draft)
  | key :: keys => do
    let (path, draft) ← draft.enter? may made (base ++ [.key key])
    enterAll? may made draft path keys

/-- The draft in which a dotted key has added to the table at the end of a path, which must not have
a header. -/
def addDotted? (draft : Draft) (path : List Step) : Option Draft :=
  if (draft.origin? path).any Origin.isHeaderless then some (draft.note path .dotted) else none

/-- Sets a key that has no value yet. A dotted key goes only into tables without a header, and the
last of them gets none later. -/
def assign? (draft : Draft) (keys : List Text) (item : Item) : Option Draft := do
  let key ← keys.getLast?
  let (path, draft) ← draft.enterAll? Origin.isHeaderless .dotted draft.current keys.dropLast
  let draft ← if keys.length > 1 then draft.addDotted? path else some draft
  let path := path ++ [.key key]
  match draft.document.find? path, item with
  | some _, _ => none
  | none, .table _ => return (draft.put path item).note path .inline
  | none, _ => return draft.put path item

/-- Goes into the tables around the one that a header names, from the top of the document. -/
def enterHeader? (draft : Draft) (keys : List Text) : Option (List Step × Draft) := do
  let key ← keys.getLast?
  let (path, draft) ← draft.enterAll? (· ≠ .inline) .implied [] keys.dropLast
  return (path ++ [.key key], draft)

/-- Opens a table that has not been opened before. -/
def openTable? (draft : Draft) (keys : List Text) : Option Draft := do
  let (path, draft) ← draft.enterHeader? keys
  let draft := { draft with current := path }
  match draft.document.find? path with
  | none => return (draft.put path (.table .nil)).note path .header
  | some (.table _) =>
    if draft.origin? path = some .implied then return draft.note path .header else none
  | some _ => none

/-- Opens one more table of a series, or the first one. -/
def openNext? (draft : Draft) (keys : List Text) : Option Draft := do
  let (path, draft) ← draft.enterHeader? keys
  let add (draft : Draft) (n : Nat) : Draft :=
    let element := path ++ [.index n]
    { (draft.put element (.table .nil)).note element .header with current := element }
  match draft.document.find? path with
  | none => return add (draft.note path .series) 0
  | some (.array es) => if draft.origin? path = some .series then return add draft es.size else none
  | some _ => none

/-- The document that assignments make. -/
def ofAssignments? (assignments : List (List Text × Item)) : Option Document :=
  (assignments.foldlM (fun draft a => assign? draft a.1 a.2) empty).map document

end Draft

end TagMarkup.Settings.Toml
