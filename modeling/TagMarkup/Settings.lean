import TagMarkup.Settings.KeyPath
import TagMarkup.Settings.Library
import TagMarkup.Settings.Toml.Reading

/-! Settings from TOML files. The keys at the top of a file are paths, and each entry of the file
puts its item at the end of its path in what the files before have made. -/

namespace TagMarkup.Settings

namespace Item

def isTable : Item → Bool
  | .table _ => true
  | .scalar _ | .array _ => false

def get? : Item → (key : Text) → Option Item
  | .table d, key => d.get? key
  | .scalar _, _ | .array _, _ => none

/-- The truth value of a value: a number is false when it is 0, and a text may be one of four
words for either, in letters of any case. -/
def toBool? : Item → Option Bool
  | .scalar (.bool b) => some b
  | .scalar (.int n) => some (n ≠ 0)
  | .scalar (.float x) => some x.isNonzero
  | .scalar (.text t) =>
    let word := String.ofList (t.map Char.toLower)
    if word ∈ ["true", "yes", "on", "1"] then some true
    else if word ∈ ["false", "no", "off", "0"] then some false
    else none
  | _ => none

/-- The text of a value. -/
def toText? : Item → Option Text
  | .scalar (.bool b) => some (toString b).toList
  | .scalar (.int n) => some (toString n).toList
  | .scalar (.float x) => some x.text
  | .scalar (.text t) => some t
  | _ => none

/-- A text is a name, and so is the only key of a table. -/
def toName? : Item → Option Text
  | .scalar (.text name) => some name
  | .table (.value name _ .nil) | .table (.array name _ .nil) | .table (.table name _ .nil) =>
    some name
  | _ => none

/-- A table has the fields under their names, and an array has them in order. -/
def toFields? : Item → (fields : List Text) → Option (Text → Option Item)
  | .table d, _ => some fun field => d.get? field
  | .array es, fields => some fun field => es.items[fields.idxOf field]?
  | .scalar _, _ => none

end Item

/-- The document `base` with every entry of a file laid over it, at the path that its key stands
for. -/
def overlayPaths : (file base : Document) → Document
  | .nil, base => base
  | .value key s rest, base => overlayPaths rest (base.place (.scalar s) (pathOfKey key))
  | .array key es rest, base => overlayPaths rest (base.place (.array es) (pathOfKey key))
  | .table key d rest, base => overlayPaths rest (base.place (.table d) (pathOfKey key))

/-- A text without the byte order mark in front of it. -/
def withoutMark : Text → Text
  | '\uFEFF' :: rest => rest
  | t => t

/-- The document in a file, if the file is well formed. -/
def documentIn? (file : Text) : Option Document := Toml.read? (withoutMark file)

/-- All files in one document, from the one that weighs least. -/
def merge? (files : List Text) : Option Document :=
  files.foldlM (fun base file => (documentIn? file).map fun d => overlayPaths d base) .nil

/-- The library that reads TOML. -/
def Library.toml : Library where
  Value := Item
  read? file := (documentIn? file).map .table
  build? files := (merge? files).map .table
  add
    | .table d, .table base => .table (overlayPaths d base)
    | file, _ => file
  merge top base := top.laidOver (some base)
  isTable := Item.isTable
  get? := Item.get?
  toBool? := Item.toBool?
  toText? := Item.toText?
  toName? := Item.toName?
  toFields? := Item.toFields?

def load (user hidden project : Option Text) : Except SettingsError Settings :=
  Library.toml.load user hidden project

end TagMarkup.Settings
