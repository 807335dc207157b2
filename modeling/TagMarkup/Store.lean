import TagMarkup.Table

/-! Stores: what filters remember under keys. A stored value has one of a few types; reading it as
another type finds nothing. `fetchWith` gives the value under a key and makes it first when it is
missing or of another type. -/

namespace TagMarkup

inductive Value
  | text (t : Text)
  | int (n : Int64)
  | bool (b : Bool)
  | list (ts : List Text)
  deriving DecidableEq, Repr

/-- A type whose values can be stored and read back. -/
class Storable (α : Type) where
  toValue : α → Value
  ofValue? : Value → Option α
  ofValue?_toValue : ∀ a, ofValue? (toValue a) = some a

instance : Storable Text where
  toValue := .text
  ofValue?
    | .text t => some t
    | _ => none
  ofValue?_toValue _ := rfl

instance : Storable Int64 where
  toValue := .int
  ofValue?
    | .int n => some n
    | _ => none
  ofValue?_toValue _ := rfl

instance : Storable Bool where
  toValue := .bool
  ofValue?
    | .bool b => some b
    | _ => none
  ofValue?_toValue _ := rfl

instance : Storable (List Text) where
  toValue := .list
  ofValue?
    | .list ts => some ts
    | _ => none
  ofValue?_toValue _ := rfl

structure Store where
  values : Table Value

namespace Store

variable {α : Type}

def empty : Store := ⟨∅⟩

instance : EmptyCollection Store := ⟨empty⟩

instance : Inhabited Store := ⟨empty⟩

def has (s : Store) (key : Text) : Bool := s.values.contains key

/-- The value under a key, if it is of the type asked for. -/
def get? [Storable α] (s : Store) (key : Text) : Option α :=
  (s.values.get? key).bind Storable.ofValue?

def set [Storable α] (s : Store) (key : Text) (a : α) : Store :=
  ⟨s.values.insert key (Storable.toValue a)⟩

def erase (s : Store) (key : Text) : Store := ⟨s.values.erase key⟩

/-- Sets the value under a key and says whether there was one. -/
def insert [Storable α] (key : Text) (a : α) (s : Store) : Bool × Store :=
  (s.has key, s.set key a)

def remove (key : Text) (s : Store) : Bool × Store := (s.has key, s.erase key)

def size (s : Store) : Nat := s.values.size

/-- The value under a key. When there is none of the type asked for, `make` makes one, and may use
the store itself; a value of that type which it has left under the key is kept and given instead
of its own. -/
def fetchWith [Storable α] (key : Text) (make : Store → α × Store) (s : Store) : α × Store :=
  match s.get? key with
  | some a => (a, s)
  | none =>
    let made := make s
    match made.2.get? key with
    | some a => (a, made.2)
    | none => (made.1, made.2.set key made.1)

def summary (s : Store) : String := s!"Memory \x7b len: {s.size} \x7d"

@[simp] theorem get?_set [Storable α] (s : Store) (key : Text) (a : α) :
    (s.set key a).get? key = some a := by
  simp [get?, set, Storable.ofValue?_toValue]

end Store

end TagMarkup
