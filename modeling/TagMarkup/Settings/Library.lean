import TagMarkup.Delimiters
import TagMarkup.Fallback

/-! Settings, and how they are loaded. A library for configuration files reads up to three files and
merges them into one value; what it has to be able to do is a `Library`. Values are converted only
when all files have been merged. -/

namespace TagMarkup

structure Settings where
  debug : Bool := false
  /-- The store of filters lasts from run to run. -/
  memoize : Bool := false
  onFailure : Fallback := .retry
  delimiters : Marks := .standard
  deriving DecidableEq, Repr

/-- Why there are no settings: a file is not well formed, or a value is of the wrong kind. -/
inductive SettingsError
  | malformed
  | unconvertible
  deriving DecidableEq, Repr

/-- Both causes read alike. -/
def SettingsError.message (_ : SettingsError) : String := "Configuration build/deserialize error"

namespace Settings

/-- A library for configuration files: its values, how it merges files, and what values convert
to. -/
structure Library where
  /-- Tables, and all that stands in them. -/
  Value : Type
  /-- The table in a file, if the file is well formed. -/
  read? : Text → Option Value
  /-- The table that several files make together, from the one that weighs least, if all of them are
  well formed. -/
  build? : List Text → Option Value
  /-- The table of the files so far with the table of one more file laid over it. -/
  add : (file base : Value) → Value
  /-- What two tables under the same key make together. -/
  merge : (top base : Value) → Value
  isTable : Value → Bool
  /-- What a table has under a key. -/
  get? : Value → (key : Text) → Option Value
  toBool? : Value → Option Bool
  toText? : Value → Option Text
  /-- The name of the choice that a value stands for. -/
  toName? : Value → Option Text
  /-- What a value has for each field of a record with these fields, if it can be a record. -/
  toFields? : Value → (fields : List Text) → Option (Text → Option Value)

def fallbackOfName? (name : Text) : Option Fallback :=
  match String.ofList name with
  | "retry" => some .retry
  | "passthrough" => some .passthrough
  | "abort" => some .abort
  | _ => none

/-- What is there converted, or `default` where there is nothing. -/
def convert {α β : Type} (conversion : α → Option β) (default : β) :
    Option α → Except SettingsError β
  | none => .ok default
  | some a =>
    match conversion a with
    | some b => .ok b
    | none => .error .unconvertible

namespace Library

variable (lib : Library)

def toFallback? (v : lib.Value) : Option Fallback := (lib.toName? v).bind fallbackOfName?

def fieldsOf (v : lib.Value) (fields : List Text) :
    Except SettingsError (Text → Option lib.Value) :=
  match lib.toFields? v fields with
  | some field => .ok field
  | none => .error .unconvertible

/-- The mark in the field of its name, or the standard one. -/
def markOf (field : Text → Option lib.Value) (role : Role) : Except SettingsError Text :=
  convert lib.toText? (Marks.standard.get role) (field role.name.toList)

def marksBy (field : Text → Option lib.Value) : Except SettingsError Marks := do
  return { opener := ← lib.markOf field .opener
           closer := ← lib.markOf field .closer
           sep := ← lib.markOf field .sep
           subSep := ← lib.markOf field .subSep }

/-- The marks in a record. -/
def marksOf : Option lib.Value → Except SettingsError Marks
  | none => .ok .standard
  | some v => do
    let field ← lib.fieldsOf v (Role.all.map fun role => role.name.toList)
    lib.marksBy field

/-- The settings in a record, with the default for each that it does not have. -/
def settingsOf (v : lib.Value) : Except SettingsError Settings := do
  let field ← lib.fieldsOf v
    (["debug", "memoize", "on_failure", "delimiters"].map String.toList)
  let debug ← convert lib.toBool? false (field "debug".toList)
  let memoize ← convert lib.toBool? false (field "memoize".toList)
  let onFailure ← convert lib.toFallback? .retry (field "on_failure".toList)
  let delimiters ← lib.marksOf (field "delimiters".toList)
  return { debug, memoize, onFailure, delimiters }

/-- The settings from the user's file, the hidden file of the project and the project's file, each
of which may be missing. -/
def load (user hidden project : Option Text) : Except SettingsError Settings :=
  match lib.build? ([user, hidden, project].filterMap id) with
  | none => .error .malformed
  | some v => lib.settingsOf v

end Library

end Settings

end TagMarkup
