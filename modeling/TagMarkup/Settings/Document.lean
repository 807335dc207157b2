import TagMarkup.Binary64

/-! Configuration documents: values under keys, and tables and arrays of them under keys, to any
depth. Documents of different weight are merged key by key, and the later one wins. -/

namespace TagMarkup.Settings

/-- A value that is neither a table nor an array. A gap stands in an array where no value has been
set. -/
inductive Scalar
  | bool (b : Bool)
  | int (n : Int)
  | float (x : Binary64)
  | text (t : Text)
  | gap
  deriving DecidableEq, Repr

/-- Entries in order: a key with a value, an array or a table. The elements of an array are entries
too, and their keys say nothing. -/
inductive Document
  | nil
  | value (key : Text) (scalar : Scalar) (rest : Document)
  | array (key : Text) (elements rest : Document)
  | table (key : Text) (inner rest : Document)
  deriving DecidableEq, Repr

/-- What stands under a key. -/
inductive Item
  | scalar (s : Scalar)
  | array (elements : Document)
  | table (d : Document)
  deriving DecidableEq, Repr

/-- A step from an item to one inside it: a key of a table, or the place of an element in an array,
which is counted from the end if it is below zero. -/
inductive Step
  | key (key : Text)
  | index (i : Int)
  deriving DecidableEq, Repr

namespace Document

/-- The document with an entry in front. -/
def cons (key : Text) (item : Item) (rest : Document) : Document :=
  match item with
  | .scalar s => value key s rest
  | .array es => array key es rest
  | .table d => table key d rest

def get? (key : Text) : Document → Option Item
  | nil => none
  | value k s rest => if k = key then some (.scalar s) else rest.get? key
  | array k es rest => if k = key then some (.array es) else rest.get? key
  | table k inner rest => if k = key then some (.table inner) else rest.get? key

/-- The document with the entry under a key replaced, or with a last entry added. -/
def set (key : Text) (item : Item) : Document → Document
  | nil => cons key item nil
  | value k s rest => if k = key then cons k item rest else value k s (rest.set key item)
  | array k es rest => if k = key then cons k item rest else array k es (rest.set key item)
  | table k inner rest => if k = key then cons k item rest else table k inner (rest.set key item)

/-- The document `base` with all entries of another one laid over it: tables are merged, and
everything else takes the place of what was there. -/
def overlay : (top base : Document) → Document
  | nil, base => base
  | value key s rest, base => (rest.overlay base).set key (.scalar s)
  | array key es rest, base => (rest.overlay base).set key (.array es)
  | table key inner rest, base =>
    match base.get? key with
    | some (.table there) => (rest.overlay base).set key (.table (inner.overlay there))
    | _ => (rest.overlay base).set key (.table inner)

def size : Document → Nat
  | nil => 0
  | value _ _ rest | array _ _ rest | table _ _ rest => rest.size + 1

def items : Document → List Item
  | nil => []
  | value _ s rest => .scalar s :: rest.items
  | array _ es rest => .array es :: rest.items
  | table _ d rest => .table d :: rest.items

/-- The elements of an array. -/
def ofItems (items : List Item) : Document := items.foldr (cons []) nil

/-- The elements with one of them replaced, after as many gaps as it takes. -/
def setNth : Nat → Item → Document → Document
  | 0, item, nil => cons [] item nil
  | 0, item, value _ _ rest | 0, item, array _ _ rest | 0, item, table _ _ rest =>
    cons [] item rest
  | n + 1, item, nil => value [] .gap (setNth n item nil)
  | n + 1, item, value k s rest => value k s (setNth n item rest)
  | n + 1, item, array k es rest => array k es (setNth n item rest)
  | n + 1, item, table k d rest => table k d (setNth n item rest)

/-- The elements with gaps in front of them. -/
def afterGaps (n : Nat) (es : Document) : Document :=
  n.repeat (value [] .gap) es

/-- The elements and the place among them that an index means. An index that is too far below zero
makes gaps in front. -/
def locate (es : Document) (i : Int) : Document × Nat :=
  if 0 ≤ i then (es, i.toNat)
  else if 0 ≤ i + es.size then (es, (i + es.size).toNat)
  else (es.afterGaps (-(i + es.size)).toNat, 0)

end Document

namespace Item

/-- An item in the place of another one. Only a table keeps the entries of a table that was
there. -/
def laidOver (item : Item) (there : Option Item) : Item :=
  match item, there with
  | .table top, some (.table base) => .table (top.overlay base)
  | item, _ => item

/-- An item at the end of a path. What is on the way and has no such step gives way to a table or
an array that has. -/
def place (item : Item) : List Step → Option Item → Item
  | [], there => item.laidOver there
  | .key key :: path, there =>
    let d := match there with
      | some (.table d) => d
      | _ => .nil
    .table (d.set key (item.place path (d.get? key)))
  | .index i :: path, there =>
    let es := match there with
      | some (.array es) => es
      | _ => .nil
    let (es, n) := es.locate i
    .array (es.setNth n (item.place path es.items[n]?))

/-- What stands at the end of a path. -/
def find? : List Step → Item → Option Item
  | [], item => some item
  | .key key :: path, .table d => (d.get? key).bind (find? path)
  | .index i :: path, .array es => (es.items[(es.locate i).2]?).bind (find? path)
  | _, _ => none

end Item

namespace Document

def find? (d : Document) (path : List Step) : Option Item := (Item.table d).find? path

/-- The document with an item placed at the end of a path, which begins with a key. -/
def place (item : Item) (path : List Step) (d : Document) : Document :=
  match item.place path (some (.table d)) with
  | .table d => d
  | _ => d

@[simp] theorem get?_cons (key k : Text) (item : Item) (d : Document) :
    (cons key item d).get? k = if k = key then some item else d.get? k := by
  cases item <;> simp [cons, get?, eq_comm]

@[simp] theorem get?_set (key k : Text) (item : Item) (d : Document) :
    (d.set key item).get? k = if k = key then some item else d.get? k := by
  induction d with
  | nil => simp [set, get?]
  | value j s rest ih =>
    by_cases hj : j = key
    · by_cases hk : k = key <;> simp [set, get?, hj, hk, Ne.symm]
    · by_cases hk : j = k
      · subst hk; simp [set, get?, hj]
      · simp [set, get?, hj, hk, ih]
  | array j es rest _ ih =>
    by_cases hj : j = key
    · by_cases hk : k = key <;> simp [set, get?, hj, hk, Ne.symm]
    · by_cases hk : j = k
      · subst hk; simp [set, get?, hj]
      · simp [set, get?, hj, hk, ih]
  | table j inner rest _ ih =>
    by_cases hj : j = key
    · by_cases hk : k = key <;> simp [set, get?, hj, hk, Ne.symm]
    · by_cases hk : j = k
      · subst hk; simp [set, get?, hj]
      · simp [set, get?, hj, hk, ih]

end Document

end TagMarkup.Settings
