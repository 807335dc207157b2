import TagMarkup.Filter.EffectQueue
import TagMarkup.Settings
import TagMarkup.Store.Pool

/-! Managers: renderers that look up a filter by the key of a tag. A manager has its own filters
and, for the run, a copy of them in which filters install and uninstall filters. It keeps a store
for its filters, afresh for each run unless the store is to last, and effects that filters leave
for the end of a pass or of the run.

Limitation: a manager does not keep the setting `debug`, which chooses only what is logged about the
answers. -/

namespace TagMarkup

/-- A filter, and how the values of its tags are set apart. -/
structure Installed where
  filter : Filter
  splitting : SplitRule

/-- Filters by name. -/
abbrev Filters := Table Installed

/-- Filters, the handle of their store, and the effects that wait. `own` are the manager's own
filters, and `live` those that tags find. -/
structure Manager where
  own : Filters
  live : Filters
  store : Handle
  memoize : Bool
  fallback : Fallback
  passEnd : EffectQueue
  runEnd : EffectQueue

/-- A manager and the stores that handles lead to. -/
structure Host where
  manager : Manager
  pool : Pool

namespace Manager

/-- A manager without filters and with a store of its own. -/
def new (pool : Pool) : Host :=
  let (store, pool) := pool.alloc
  { manager := { own := ∅, live := ∅, store, memoize := false, fallback := .retry,
                 passEnd := ∅, runEnd := ∅ }
    pool }

/-- A new manager as the settings say. -/
def ofSettings (settings : Settings) (pool : Pool) : Host :=
  let host := new pool
  { host with manager :=
    { host.manager with fallback := settings.onFailure, memoize := settings.memoize } }

/-- The manager with a store that it keeps from run to run. -/
def keepStore (m : Manager) (store : Handle) : Manager := { m with store, memoize := true }

def install (m : Manager) (name : Text) (filter : Filter) (splitting : SplitRule) : Manager :=
  let installed : Installed := ⟨filter, splitting⟩
  { m with own := m.own.insert name installed, live := m.live.insert name installed }

/-- Takes away a filter, and says whether it was the manager's own. -/
def uninstall (m : Manager) (name : Text) : Bool × Manager :=
  (m.own.contains name, { m with own := m.own.erase name, live := m.live.erase name })

def knows (m : Manager) (name : Text) : Bool := m.live.contains name

/-- The names of the filters that tags find, sorted. -/
def names (m : Manager) : List Text := m.live.sortedKeys

/-- Only the manager's own filters are left, and no effects. -/
def reset (m : Manager) : Manager := { m with live := m.own, passEnd := ∅, runEnd := ∅ }

end Manager

namespace Host

def store (h : Host) : Store := h.pool.get h.manager.store

def changeStore (h : Host) (change : Store → Store) : Host :=
  { h with pool := h.pool.modify h.manager.store change }

/-- Carries out what a filter does. -/
def perform : Action → Host → Except FilterError Answer × Host
  | .done result, h => (result, h)
  | .install name filter splitting next, h =>
    let live := h.manager.live.insert name ⟨filter, splitting⟩
    perform next { h with manager := { h.manager with live } }
  | .uninstall name next, h =>
    let live := h.manager.live.erase name
    perform (next (h.manager.live.contains name)) { h with manager := { h.manager with live } }
  | .knows name next, h => perform (next (h.manager.live.contains name)) h
  | .readStore next, h => perform (next h.store) h
  | .writeStore change next, h => perform next (h.changeStore change)
  | .atPassEnd key effect next, h =>
    let added := h.manager.passEnd.add key effect
    perform (next added.1) { h with manager := { h.manager with passEnd := added.2 } }
  | .atRunEnd key effect next, h =>
    let added := h.manager.runEnd.add key effect
    perform (next added.1) { h with manager := { h.manager with runEnd := added.2 } }

/-- Runs the filter for a tag. What it does to the filters takes effect at once, but not on
itself. -/
def answer (info : PassInfo) (path? : Option Path) (tag : SingleTag) (h : Host) :
    Except NoAnswer Answer × Host :=
  match h.manager.live.get? tag.key with
  | none => (.error (.unknownKey tag.key), h)
  | some installed =>
    let call := tag.call info.delimiters installed.splitting
    let performed := perform (installed.filter call ⟨path?, info⟩) h
    (performed.1.mapError (.filter tag.key), performed.2)

/-- Resets the manager, and gives it a new store unless it keeps its own. -/
def startRun (h : Host) : Host :=
  let manager := h.manager.reset
  if manager.memoize then { h with manager }
  else
    let (store, pool) := h.pool.alloc
    { manager := { manager with store }, pool }

def endPass (h : Host) : Host :=
  let ran := h.changeStore h.manager.passEnd.run
  { ran with manager := { ran.manager with passEnd := ∅ } }

/-- Runs the effects that are left, and resets the manager. -/
def endRun (h : Host) : Host :=
  let ran := h.endPass.changeStore h.manager.runEnd.run
  { ran with manager := ran.manager.reset }

def renderer : Renderer Host where
  fallback h := h.manager.fallback
  startRun := startRun
  endPass _ := endPass
  endRun _ := endRun
  answer := answer

def summary (h : Host) : String :=
  let m := h.manager
  let names := ", ".intercalate (m.names.map fun name => String.ofList name.quoted)
  s!"FilterManager \x7b filters: [{names}], memory: {h.store.summary}, memoize: {m.memoize}, " ++
    s!"policy: {m.fallback.name}, deferred: {m.passEnd.size}, aftermath: {m.runEnd.size}, .. \x7d"

end Host

end TagMarkup
