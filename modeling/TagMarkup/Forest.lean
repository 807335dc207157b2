/-! Ordered forests: a value with the forest inside it, followed by the trees after it. Every value
has a number, its place when the forest is read from the front, and a path, the places of its tree
and of the trees around it among their siblings. -/

namespace TagMarkup

universe u v

inductive Forest (α : Type u)
  | nil
  | cons (value : α) (inner rest : Forest α)
  deriving DecidableEq, Repr

/-- The place of a tree among its siblings, outermost first. -/
abbrev Path := List Nat

namespace Forest

variable {α : Type u} {β : Type v}

def tree (value : α) (inner : Forest α) : Forest α := cons value inner nil

def append : Forest α → Forest α → Forest α
  | nil, g => g
  | cons a inner rest, g => cons a inner (rest.append g)

instance : Append (Forest α) := ⟨append⟩

def map (f : α → β) : Forest α → Forest β
  | nil => nil
  | cons a inner rest => cons (f a) (inner.map f) (rest.map f)

/-- All values, each before those inside it. -/
def toList : Forest α → List α
  | nil => []
  | cons a inner rest => a :: (inner.toList ++ rest.toList)

/-- The trees of the forest, as values with what is inside them. -/
def trees : Forest α → List (α × Forest α)
  | nil => []
  | cons a inner rest => (a, inner) :: rest.trees

def size : Forest α → Nat
  | nil => 0
  | cons _ inner rest => inner.size + rest.size + 1

@[simp] theorem nil_append (g : Forest α) : nil ++ g = g := rfl

@[simp] theorem cons_append (a : α) (inner rest g : Forest α) :
    cons a inner rest ++ g = cons a inner (rest ++ g) := rfl

@[simp] theorem append_nil (f : Forest α) : f ++ nil = f := by
  induction f with
  | nil => rfl
  | cons a inner rest _ ih => rw [cons_append, ih]

theorem append_assoc (f g h : Forest α) : f ++ g ++ h = f ++ (g ++ h) := by
  induction f with
  | nil => rfl
  | cons a inner rest _ ih => simp only [cons_append, ih]

@[simp] theorem toList_append (f g : Forest α) : (f ++ g).toList = f.toList ++ g.toList := by
  induction f with
  | nil => rfl
  | cons a inner rest _ ih => simp [toList, ih]

@[simp] theorem length_toList (f : Forest α) : f.toList.length = f.size := by
  induction f with
  | nil => rfl
  | cons a inner rest ih₁ ih₂ => simp [toList, size, ih₁, ih₂]

/-- The value and the inside of the tree at a path that steps into it. -/
def find? : Forest α → Nat → Path → Option (α × Forest α)
  | nil, _, _ => none
  | cons a inner _, 0, [] => some (a, inner)
  | cons _ inner _, 0, i :: path => inner.find? i path
  | cons _ _ rest, i + 1, path => rest.find? i path

/-- The number of the tree at a path, when `first` is the number of the forest's first tree. -/
def number? (first : Nat) : Forest α → Nat → Path → Option Nat
  | nil, _, _ => none
  | cons _ _ _, 0, [] => some first
  | cons _ inner _, 0, i :: path => inner.number? (first + 1) i path
  | cons _ inner rest, i + 1, path => rest.number? (first + 1 + inner.size) i path

/-- The path of the tree number `n` places after the first, when `index` is the place of the first
tree among its siblings. -/
def path? (index : Nat) : Forest α → Nat → Option Path
  | nil, _ => none
  | cons _ _ _, 0 => some [index]
  | cons _ inner rest, n + 1 =>
    if n < inner.size then (inner.path? 0 n).map (index :: ·)
    else rest.path? (index + 1) (n - inner.size)

/-- The numbers of the outermost trees, the first of which has the number `first`. -/
def numbers (first : Nat) : Forest α → List Nat
  | nil => []
  | cons _ inner rest => first :: rest.numbers (first + 1 + inner.size)

/-- The number of the tree around each value, in the order of the values, when the forest stands
inside number `around` and its first tree has the number `first`. -/
def parents (around first : Nat) : Forest α → List Nat
  | nil => []
  | cons _ inner rest =>
    around :: (inner.parents first (first + 1) ++ rest.parents around (first + 1 + inner.size))

/-- The numbers of the trees directly inside each value, in the order of the values. -/
def children (first : Nat) : Forest α → List (List Nat)
  | nil => []
  | cons _ inner rest =>
    inner.numbers (first + 1) ::
      (inner.children (first + 1) ++ rest.children (first + 1 + inner.size))

@[simp] theorem length_parents (around first : Nat) (f : Forest α) :
    (f.parents around first).length = f.size := by
  induction f generalizing around first with
  | nil => rfl
  | cons a inner rest ih₁ ih₂ => simp [parents, size, ih₁, ih₂]

@[simp] theorem length_children (first : Nat) (f : Forest α) :
    (f.children first).length = f.size := by
  induction f generalizing first with
  | nil => rfl
  | cons a inner rest ih₁ ih₂ => simp [children, size, ih₁, ih₂]

end Forest

end TagMarkup
