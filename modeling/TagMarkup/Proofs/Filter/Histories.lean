import Mathlib.Logic.Relation
import TagMarkup.Proofs.Filter.Rest

/-! Hosts and what has happened to them before a run. The start of a run drops what earlier runs,
single tags and hooks have left behind, and takes a new store, so hosts with the same filters of
their own and the same fallback do the same from there on, wherever in the pool their stores are
(`Twins`). -/

namespace TagMarkup

open Relation (ReflTransGen)

namespace Host

/-- What can happen to a host when nobody changes its manager's own filters or the manager's
choices: a run, a tag or a hook outside of a run, a reset, and anything at all to the stores of the
pool. -/
inductive Step : Host → Host → Prop
  | run (t : Template) (h : Host) : Step h (t.run renderer h).state
  | answer (info : PassInfo) (path? : Option Path) (tag : SingleTag) (h : Host) :
    Step h (h.answer info path? tag).2
  | startRun (h : Host) : Step h h.startRun
  | endPass (h : Host) : Step h h.endPass
  | endRun (h : Host) : Step h h.endRun
  | reset (h : Host) : Step h h.reset
  | stores (h : Host) (pool : Pool) : Step h { h with pool }

/-- The managers have the same filters of their own, and the same choices have been made for them.
-/
structure SameBase (h h' : Host) : Prop where
  own : ∀ name, h.manager.own.get? name = h'.manager.own.get? name
  fallback : h.manager.fallback = h'.manager.fallback
  memoize : h.manager.memoize = h'.manager.memoize

variable {h h' h'' : Host}

namespace SameBase

theorem refl (h : Host) : SameBase h h := ⟨fun _ => rfl, rfl, rfl⟩

theorem symm (hb : SameBase h h') : SameBase h' h :=
  ⟨fun name => (hb.own name).symm, hb.fallback.symm, hb.memoize.symm⟩

theorem trans (hb : SameBase h h') (hb' : SameBase h' h'') : SameBase h h'' :=
  ⟨fun name => (hb.own name).trans (hb'.own name), hb.fallback.trans hb'.fallback,
    hb.memoize.trans hb'.memoize⟩

theorem startRun (h : Host) : SameBase h h.startRun :=
  ⟨fun _ => by rw [startRun_own], (startRun_fallback h).symm, (startRun_memoize h).symm⟩

end SameBase

theorem Frame.sameBase (hf : Frame h h') : SameBase h h' :=
  ⟨fun _ => by rw [hf.own], hf.fallback.symm, hf.memoize.symm⟩

theorem Step.sameBase (hs : Step h h') : SameBase h h' := by
  cases hs with
  | run t => exact (SameBase.startRun h).trans (run_frame t h).sameBase
  | answer info path? tag =>
    exact ((Frame.stable h).answer ⟨rfl, .refl h⟩ info path? tag).2.2.sameBase
  | startRun => exact .startRun h
  | endPass => exact ((Frame.stable h).endPass ⟨rfl, .refl h⟩).2.sameBase
  | endRun => exact ((Frame.stable h).endRun ⟨rfl, .refl h⟩).2.sameBase
  | reset | stores => exact ⟨fun _ => rfl, rfl, rfl⟩

theorem sameBase_of_history (hs : ReflTransGen Step h h') : SameBase h h' := by
  induction hs with
  | refl => exact .refl h
  | tail _ hs ih => exact ih.trans hs.sameBase

/-- The hosts differ at most in where their stores are, and in what is in other stores. -/
structure Twins (h h' : Host) : Prop where
  own : ∀ name, h.manager.own.get? name = h'.manager.own.get? name
  live : ∀ name, h.manager.live.get? name = h'.manager.live.get? name
  fallback : h.manager.fallback = h'.manager.fallback
  passEnd : h.manager.passEnd = h'.manager.passEnd
  runEnd : h.manager.runEnd = h'.manager.runEnd
  store : h.store = h'.store
  inPool : h.manager.store.index < h.pool.size
  inPool' : h'.manager.store.index < h'.pool.size

namespace Twins

theorem changeStore (ht : Twins h h') (change : Store → Store) :
    Twins (h.changeStore change) (h'.changeStore change) where
  own := ht.own
  live := ht.live
  fallback := ht.fallback
  passEnd := ht.passEnd
  runEnd := ht.runEnd
  store := by
    have hstore := Pool.get_modify h.pool change ht.inPool
    have hstore' := Pool.get_modify h'.pool change ht.inPool'
    exact hstore.trans ((congrArg change ht.store).trans hstore'.symm)
  inPool := by simpa only [Host.changeStore, Pool.size_modify] using ht.inPool
  inPool' := by simpa only [Host.changeStore, Pool.size_modify] using ht.inPool'

theorem stable : Stable Twins where
  live := Twins.live
  store := Twins.store
  passEnd := Twins.passEnd
  runEnd := Twins.runEnd
  insert ht name installed := { ht with
    live := fun k => by simp only [withFilters, Table.get?_insert, ht.live] }
  erase ht name := { ht with
    live := fun k => by simp only [withFilters, Table.get?_erase, ht.live] }
  changeStore := Twins.changeStore
  withPassEnd ht _ := { ht with passEnd := rfl }
  withRunEnd ht _ := { ht with runEnd := rfl }
  reset ht := { ht with live := ht.own, passEnd := rfl, runEnd := rfl }

/-- After the start of a run, only the manager's own filters and its fallback tell hosts apart. -/
theorem startRun (hb : SameBase h h') (hm : h.manager.memoize = false) :
    Twins h.startRun h'.startRun := by
  rw [startRun_of_not_memoize hm, startRun_of_not_memoize (hb.memoize ▸ hm)]
  exact {
    own := hb.own
    live := hb.own
    fallback := hb.fallback
    passEnd := rfl
    runEnd := rfl
    store := (Pool.get_alloc_new _).trans (Pool.get_alloc_new _).symm
    inPool := by simp [Pool.alloc, Pool.size]
    inPool' := by simp [Pool.alloc, Pool.size] }

end Twins

theorem run_like (t : Template) (hb : SameBase h h') (hm : h.manager.memoize = false) :
    Run.Like Twins (t.run renderer h) (t.run renderer h') :=
  runWith_simulates (Twins.stable.simulates fun _ _ => Twins.fallback) (.startRun hb hm) t

/-- A run with a store of its own leaves all stores as they are that were there before it. -/
theorem run_stores (t : Template) (hm : h.manager.memoize = false) (k : Handle)
    (hk : k.index < h.pool.size) : (t.run renderer h).state.pool.get k = h.pool.get k := by
  have hframe := run_frame t h
  rw [startRun_of_not_memoize hm] at hframe
  have hne : k ≠ h.pool.alloc.1 := by
    rintro rfl
    exact Nat.lt_irrefl _ hk
  exact (hframe.others k hne).trans (Pool.get_alloc h.pool hk)

/-- Managers with the same filters and the same fallback, neither of which keeps its store, do the
same in a run, whatever has happened to them before, and no store that was there before changes. -/
theorem runs_forget_histories (t : Template) {start start' : Host} (hb : SameBase start start')
    (hm : start.manager.memoize = false) (hs : ReflTransGen Step start h)
    (hs' : ReflTransGen Step start' h') :
    (t.run renderer h).result = (t.run renderer h').result ∧
    (t.run renderer h).intermediate = (t.run renderer h').intermediate ∧
    (t.run renderer h).state.store = (t.run renderer h').state.store ∧
    ∀ k : Handle, k.index < h.pool.size →
      (t.run renderer h).state.pool.get k = h.pool.get k := by
  have hbase := (sameBase_of_history hs).symm.trans (hb.trans (sameBase_of_history hs'))
  have hmemoize : h.manager.memoize = false := (sameBase_of_history hs).memoize ▸ hm
  obtain ⟨hresult, hintermediate, htwins⟩ := run_like t hbase hmemoize
  exact ⟨hresult, hintermediate, htwins.store, run_stores t hmemoize⟩

/-- The run before has installed the filter `new` and was aborted. The run of a tag with that key
does not find the filter, like a run with no other before it. -/
theorem runs_forget_aborted : ∃ t t', Template.ofText "[[def]][[nope]]".toList = .ok t ∧
    Template.ofText "[[new]]".toList = .ok t' ∧ installing.manager.memoize = false ∧
    let h := (t.run renderer installing).state
    h.manager.knows "new".toList = true ∧ h.pool.size = 2 ∧
      (t'.run renderer h).result = .error (.aborted 0 (.unknownKey "new".toList)) ∧
      (t'.run renderer h).intermediate = (t'.run renderer installing).intermediate ∧
      (t'.run renderer h).state.store = (t'.run renderer installing).state.store ∧
      (t'.run renderer h).state.pool.get ⟨1⟩ = h.pool.get ⟨1⟩ := by
  obtain ⟨t, ht, -, -, hknows⟩ := exists_leftover
  let t' : Template := ⟨["[[new]]".toList], .single, .standard,
    ⟨7, .tree ⟨.inline, ⟨"new".toList, []⟩, 0, 7⟩ .nil⟩, [], by decide +kernel⟩
  have hfirst : (t'.run renderer installing).result =
      .error (.aborted 0 (.unknownKey "new".toList)) := by
    decide +kernel
  have hsize : (t.run renderer installing).state.pool.size = 2 := (run_frame t installing).size
  obtain ⟨hresult, hintermediate, hstore, hothers⟩ :=
    runs_forget_histories t' (.refl installing) rfl (.single (.run t installing)) .refl
  refine ⟨t, t', ht, Template.read_eq_ok.2 ⟨rfl, rfl, rfl, rfl⟩, rfl, hknows, hsize,
    hresult.trans hfirst, hintermediate, hstore, hothers ⟨1⟩ ?_⟩
  rw [hsize]
  decide

end Host

end TagMarkup
