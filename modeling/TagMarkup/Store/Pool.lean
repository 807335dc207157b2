import TagMarkup.Store

/-! A pool of stores behind handles. Equal handles share a store, and a store that has been added
to a pool stays where it is, so a handle always leads to the same store. -/

namespace TagMarkup

/-- The place of a store in a pool. -/
structure Handle where
  index : Nat
  deriving DecidableEq, Repr

/-- Stores in the order in which they were added. -/
structure Pool where
  stores : List Store

namespace Pool

def empty : Pool := ⟨[]⟩

instance : EmptyCollection Pool := ⟨empty⟩

instance : Inhabited Pool := ⟨empty⟩

def size (p : Pool) : Nat := p.stores.length

def alloc (p : Pool) : Handle × Pool := (⟨p.size⟩, ⟨p.stores ++ [∅]⟩)

def get (p : Pool) (h : Handle) : Store := p.stores[h.index]?.getD ∅

def modify (p : Pool) (h : Handle) (change : Store → Store) : Pool :=
  ⟨p.stores.modify h.index change⟩

/-- Changes a store in a way that gives an answer. -/
def run {β : Type} (p : Pool) (h : Handle) (change : Store → β × Store) : β × Pool :=
  ((change (p.get h)).1, p.modify h fun s => (change s).2)

@[simp] theorem size_modify (p : Pool) (h : Handle) (change : Store → Store) :
    (p.modify h change).size = p.size := by
  simp [modify, size]

theorem get_modify (p : Pool) {h : Handle} (change : Store → Store) (hh : h.index < p.size) :
    (p.modify h change).get h = change (p.get h) := by
  simp only [size] at hh
  simp [modify, get, hh]

theorem get_modify_ne (p : Pool) {h k : Handle} (change : Store → Store) (hk : k ≠ h) :
    (p.modify h change).get k = p.get k := by
  have : h.index ≠ k.index := fun e => hk (by cases h; cases k; simp_all)
  simp [modify, get, this]

/-- A new store leaves the others as they are. -/
theorem get_alloc (p : Pool) {k : Handle} (hk : k.index < p.size) : p.alloc.2.get k = p.get k := by
  simp only [size] at hk
  simp [alloc, get, List.getElem?_append_left hk]

@[simp] theorem get_alloc_new (p : Pool) : p.alloc.2.get p.alloc.1 = ∅ := by
  simp [alloc, get, size]

end Pool

end TagMarkup
