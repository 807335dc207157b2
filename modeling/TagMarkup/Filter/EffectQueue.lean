import TagMarkup.Filter.Action

/-! Effects that wait for their turn. -/

namespace TagMarkup

/-- Effects under keys, in the order in which they came in. -/
structure EffectQueue where
  effects : Table Effect

namespace EffectQueue

def empty : EffectQueue := ⟨∅⟩

instance : EmptyCollection EffectQueue := ⟨empty⟩

def size (q : EffectQueue) : Nat := q.effects.size

/-- Adds an effect unless its key is taken, and says whether it was added. -/
def add (key : Text) (effect : Effect) (q : EffectQueue) : Bool × EffectQueue :=
  if q.effects.contains key then (false, q) else (true, ⟨q.effects.insert key effect⟩)

def run (q : EffectQueue) (s : Store) : Store :=
  q.effects.entries.foldl (fun s (_, effect) => effect s) s

end EffectQueue

end TagMarkup
