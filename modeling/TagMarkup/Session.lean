import TagMarkup.Filter.Manager

/-! Sessions: managers and stores by name over one pool. A name that has not been used before
stands for a new manager, or a new store. -/

namespace TagMarkup

structure Session where
  managers : Table Manager
  stores : Table Handle
  pool : Pool

namespace Session

def empty : Session := ⟨∅, ∅, ∅⟩

/-- A manager by name, and the session in which it has one. -/
def host (s : Session) (name : Text) : Host :=
  match s.managers.get? name with
  | some manager => ⟨manager, s.pool⟩
  | none => Manager.new s.pool

def put (s : Session) (name : Text) (h : Host) : Session :=
  { s with managers := s.managers.insert name h.manager, pool := h.pool }

def withHost {α : Type} (s : Session) (name : Text) (f : Host → α × Host) : α × Session :=
  let (a, h) := f (s.host name)
  (a, s.put name h)

/-- The handle of a store by name. -/
def store (s : Session) (name : Text) : Handle × Session :=
  match s.stores.get? name with
  | some handle => (handle, s)
  | none =>
    let (handle, pool) := s.pool.alloc
    (handle, { s with stores := s.stores.insert name handle, pool })

/-- The two managers use the same store. -/
def shares (s : Session) (a b : Text) : Bool × Session :=
  let (x, s) := s.withHost a fun h => (h.manager.store, h)
  let (y, s) := s.withHost b fun h => (h.manager.store, h)
  (x = y, s)

end Session

end TagMarkup
