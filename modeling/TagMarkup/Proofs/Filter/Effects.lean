import Mathlib.Data.List.Induction
import TagMarkup.Proofs.Filter.Deeds
import TagMarkup.Proofs.Filter.Rest
import TagMarkup.Proofs.Rendering.Recording

/-! The effects that filters leave in a run, and when they are run. A chronicle tells, in order,
which filters have been at work and which effects have been run. Of the effects that were left under
one key in one pass, or in the whole run, the first one is run, and the filter that left it heard so
(`effects_run_once`). -/

namespace TagMarkup

theorem Table.mem_keys_of_contains {α : Type} {t : Table α} {key : Text}
    (h : t.contains key = true) : key ∈ t.keys := by
  obtain ⟨es, hes⟩ := t
  unfold contains get? at h
  unfold keys
  induction es with
  | nil => cases h
  | cons e es ih =>
    rw [find?] at h
    split at h
    · next hk => exact List.mem_cons.2 (.inl hk.symm)
    · exact List.mem_cons_of_mem _ (ih (List.nodup_cons.1 hes).2 h)

/-- An entry with a new key comes last. -/
theorem Table.entries_insert {α : Type} {t : Table α} {key : Text} (value : α)
    (h : t.contains key = false) : (t.insert key value).entries = t.entries ++ [(key, value)] := by
  obtain ⟨es, hes⟩ := t
  unfold contains get? at h
  show put key value es = es ++ [(key, value)]
  induction es with
  | nil => rfl
  | cons e es ih =>
    rw [find?] at h
    split at h
    · cases h
    · next hk => rw [put, if_neg hk, ih (List.nodup_cons.1 hes).2 h, List.cons_append]

/-- An effect that a filter left under a key, and whether the filter heard that it was added. -/
structure Leaving where
  key : Text
  effect : Effect
  added : Bool

/-- The effects that a filter left for a moment. -/
def Deed.leaving? (moment : Script.Moment) : Deed → Option Leaving
  | .leave m key effect added => if m = moment then some ⟨key, effect, added⟩ else none
  | _ => none

namespace Leaving

variable {ls : List Leaving}

/-- An effect was added exactly if none had been left under its key before. -/
def FirstsAdded (ls : List Leaving) : Prop :=
  ∀ before l after, ls = before ++ l :: after → (l.added = true ↔ ∀ l' ∈ before, l'.key ≠ l.key)

theorem FirstsAdded.nil : FirstsAdded [] := by
  intro before l after h
  simp at h

theorem FirstsAdded.concat {l : Leaving} (h : FirstsAdded ls)
    (hl : l.added = true ↔ ∀ l' ∈ ls, l'.key ≠ l.key) : FirstsAdded (ls ++ [l]) := by
  intro before l' after heq
  rcases List.eq_nil_or_concat after with rfl | ⟨after, last, rfl⟩
  · obtain ⟨rfl, hlast⟩ := List.append_inj' heq rfl
    obtain rfl : l = l' := (List.cons.inj hlast).1
    exact hl
  · have hfront : ls = before ++ l' :: after := by
      rw [List.concat_eq_append, ← List.cons_append, ← List.append_assoc] at heq
      exact (List.append_inj' heq rfl).1
    exact h before l' after hfront

/-- The effects that were added, in order. -/
def effects (ls : List Leaving) : List (Text × Effect) :=
  (ls.filter Leaving.added).map fun l => (l.key, l.effect)

/-- The first effect that was left under a key. -/
def firstUnder (key : Text) (ls : List Leaving) : Option Effect :=
  (ls.find? fun l => l.key = key).map Leaving.effect

/-- Of the effects under one key the first was added, and no other. -/
theorem FirstsAdded.effects_under (h : FirstsAdded ls) (key : Text) :
    (effects ls).filterMap (fun e => if e.1 = key then some e.2 else none) =
      (firstUnder key ls).toList := by
  induction ls using List.reverseRecOn with
  | nil => rfl
  | append_singleton ls l ih =>
    have ih := ih fun before l' after heq => h before l' (after ++ [l]) (by simp [heq])
    have hl : l.added = true ↔ ∀ l' ∈ ls, l'.key ≠ l.key := h ls l [] rfl
    have hsplit : effects (ls ++ [l]) = effects ls ++ effects [l] := by simp [effects]
    rw [hsplit, List.filterMap_append, ih, firstUnder, firstUnder, List.find?_append]
    by_cases hlkey : l.key = key
    · subst hlkey
      cases hfind : ls.find? fun l' => l'.key = l.key with
      | some first =>
        have hkey : first.key = l.key := by simpa using List.find?_some hfind
        have hlate : l.added = false := Bool.eq_false_iff.2 fun hadded =>
          hl.1 hadded first (List.mem_of_find?_eq_some hfind) hkey
        simp [effects, hlate]
      | none =>
        have hfirst : l.added = true := hl.2 (by simpa using hfind)
        simp [effects, hfirst]
    · have hother :
          (effects [l]).filterMap (fun e => if e.1 = key then some e.2 else none) = [] := by
        cases hadded : l.added <;> simp [effects, hadded, hlkey]
      simp [hother, hlkey]

/-- The queue holds what has been left since it was empty. -/
structure Queued (ls : List Leaving) (q : EffectQueue) : Prop where
  firsts : FirstsAdded ls
  entries : q.effects.entries = effects ls
  taken : ∀ l ∈ ls, q.effects.contains l.key = true

theorem Queued.empty : Queued [] ∅ := ⟨.nil, rfl, by simp⟩

theorem Queued.contains_iff {q : EffectQueue} (h : Queued ls q) (key : Text) :
    q.effects.contains key = true ↔ ∃ l ∈ ls, l.key = key := by
  constructor
  · intro hkey
    have hmem := Table.mem_keys_of_contains hkey
    rw [Table.keys, h.entries, effects, List.map_map] at hmem
    obtain ⟨l, hl, rfl⟩ := List.mem_map.1 hmem
    exact ⟨l, (List.mem_filter.1 hl).1, rfl⟩
  · rintro ⟨l, hl, rfl⟩
    exact h.taken l hl

theorem Queued.add {q : EffectQueue} (h : Queued ls q) (key : Text) (effect : Effect) :
    Queued (ls ++ [⟨key, effect, (q.add key effect).1⟩]) (q.add key effect).2 := by
  unfold EffectQueue.add
  split
  · next hkey =>
    obtain ⟨l, hl, hlkey⟩ := (h.contains_iff key).1 hkey
    refine ⟨h.firsts.concat ?_, ?_, ?_⟩
    · exact ⟨nofun, fun hne => absurd hlkey (hne l hl)⟩
    · simpa [effects] using h.entries
    · intro l' hl'
      rcases List.mem_append.1 hl' with hl' | hl'
      · exact h.taken l' hl'
      · obtain rfl := List.mem_singleton.1 hl'
        exact hkey
  · next hkey =>
    have hfree := Bool.eq_false_iff.2 hkey
    refine ⟨h.firsts.concat ?_, ?_, ?_⟩
    · exact ⟨fun _ l hl hlkey => hkey ((h.contains_iff key).2 ⟨l, hl, hlkey⟩), fun _ => rfl⟩
    · rw [Table.entries_insert effect hfree, h.entries]
      simp [effects]
    · intro l' hl'
      rw [Table.contains, Table.get?_insert]
      split
      · rfl
      · rcases List.mem_append.1 hl' with hl' | hl'
        · exact h.taken l' hl'
        · next hne =>
          obtain rfl := List.mem_singleton.1 hl'
          exact absurd rfl hne

end Leaving

/-- A look at a store, or a change of it. -/
inductive Touch
  | read (store : Store)
  | change (effect : Effect)

def Deed.touch? : Deed → Option Touch
  | .readStore store => some (.read store)
  | .writeStore change => some (.change change)
  | _ => none

/-- One store of a pool is touched time after time, and nothing else happens to the pool. Whoever
looks sees the store as it is then. -/
inductive Pool.Touched (handle : Handle) : Pool → List Touch → Pool → Prop
  | nil (pool : Pool) : Touched handle pool [] pool
  | read {pool last : Pool} {touches : List Touch} (onward : Touched handle pool touches last) :
    Touched handle pool (.read (pool.get handle) :: touches) last
  | change {pool last : Pool} {touches : List Touch} (effect : Effect)
    (onward : Touched handle (pool.modify handle effect) touches last) :
    Touched handle pool (.change effect :: touches) last

namespace Pool

variable {handle : Handle} {a b c : Pool} {ts us : List Touch}

theorem Touched.append (h : Touched handle a ts b) (h' : Touched handle b us c) :
    Touched handle a (ts ++ us) c := by
  induction h with
  | nil => exact h'
  | read _ ih => exact .read (ih h')
  | change effect _ ih => exact .change effect (ih h')

theorem modify_id (p : Pool) (handle : Handle) : p.modify handle (fun s => s) = p := by
  obtain ⟨stores⟩ := p
  exact congrArg Pool.mk (List.modify_id _ _)

theorem modify_modify (p : Pool) (handle : Handle) (f g : Store → Store) :
    (p.modify handle f).modify handle g = p.modify handle fun s => g (f s) := by
  obtain ⟨stores⟩ := p
  exact congrArg Pool.mk (List.modify_modify_eq _ _ _ _)

end Pool

/-- To run the effects in a queue is to make their changes one after the other. -/
theorem EffectQueue.touched_run (q : EffectQueue) (handle : Handle) (pool : Pool) :
    pool.Touched handle (q.effects.entries.map fun e => .change e.2)
      (pool.modify handle q.run) := by
  unfold run
  generalize q.effects.entries = es
  induction es generalizing pool with
  | nil =>
    have h : pool.Touched handle [] (pool.modify handle fun s => s) := by
      rw [pool.modify_id]
      exact .nil pool
    exact h
  | cons e es ih =>
    have h := ih (pool.modify handle e.2)
    rw [pool.modify_modify] at h
    exact .change e.2 h

/-! Deeds, each with the reply of the host. -/

namespace Host

variable {h : Host} {deed : Deed} {deeds : List Deed} {moment : Script.Moment} {ls : List Leaving}

@[simp] theorem after_store (h : Host) (deed : Deed) :
    (h.after deed).manager.store = h.manager.store := by
  cases deed with
  | leave moment => cases moment <;> rfl
  | _ => rfl

theorem touched_after (hr : h.Replies deed) :
    h.pool.Touched h.manager.store deed.touch?.toList (h.after deed).pool := by
  cases deed with
  | readStore store =>
    obtain rfl : store = h.store := hr
    exact .read (.nil _)
  | writeStore change => exact .change change (.nil _)
  | leave moment => cases moment <;> exact .nil _
  | _ => exact .nil _

theorem queued_after (hq : Leaving.Queued ls (h.waiting moment)) (hr : h.Replies deed) :
    Leaving.Queued (ls ++ (deed.leaving? moment).toList) ((h.after deed).waiting moment) := by
  cases deed with
  | leave m key effect added =>
    obtain rfl : added = ((h.waiting m).add key effect).1 := hr
    by_cases hm : m = moment
    · subst hm
      have hadd := hq.add key effect
      cases m <;> simpa [Deed.leaving?, after, withWaiting, waiting, withPassEnd, withRunEnd]
        using hadd
    · cases m <;> cases moment <;>
        first
        | exact absurd rfl hm
        | simpa [Deed.leaving?, after, withWaiting, waiting, withPassEnd, withRunEnd] using hq
  | _ => simpa [Deed.leaving?, after, waiting, withFilters, changeStore] using hq

theorem deeds_store (h : Host) (deeds : List Deed) :
    (deeds.foldl after h).manager.store = h.manager.store := by
  induction deeds generalizing h with
  | nil => rfl
  | cons deed deeds ih => exact (ih (h.after deed)).trans (h.after_store deed)

theorem touched_deeds (hg : h.Grants deeds) :
    h.pool.Touched h.manager.store (deeds.filterMap Deed.touch?) (deeds.foldl after h).pool := by
  induction deeds generalizing h with
  | nil => exact .nil _
  | cons deed deeds ih =>
    have hrest := ih hg.2
    rw [after_store] at hrest
    have hall := (touched_after hg.1).append hrest
    cases hd : deed.touch? <;> simpa [hd] using hall

theorem queued_deeds (hq : Leaving.Queued ls (h.waiting moment)) (hg : h.Grants deeds) :
    Leaving.Queued (ls ++ deeds.filterMap (Deed.leaving? moment))
      ((deeds.foldl after h).waiting moment) := by
  induction deeds generalizing h ls with
  | nil => simpa using hq
  | cons deed deeds ih =>
    have hall := ih (queued_after hq hg.1) hg.2
    cases hd : deed.leaving? moment <;> simpa [hd] using hall

end Host

/-- What happens in a run: a filter has been at work, or an effect is run. -/
inductive Happening
  | asked (d : Dispatch)
  | ran (moment : Script.Moment) (key : Text) (effect : Effect)

/-- The number of the pass in which a filter was at work, or the key of the effect that is run. -/
def Happening.label : Happening → Nat ⊕ Text
  | asked d => .inl d.around.info.index
  | ran _ key _ => .inr key

/-- The effect that is run, if it is one under this key. -/
def Happening.effectUnder? (key : Text) : Happening → Option Effect
  | asked _ => none
  | ran _ k effect => if k = key then some effect else none

/-- What happens to the store of the manager. -/
def Happening.touches : Happening → List Touch
  | asked d => d.deeds.filterMap Deed.touch?
  | ran _ _ effect => [.change effect]

/-- A host, and what has happened since its run started. -/
structure Chronicle where
  host : Host
  log : List Happening

namespace Host

/-- The effects that wait for a moment, as they are run. -/
def runs (h : Host) (moment : Script.Moment) : List Happening :=
  (h.waiting moment).effects.entries.map fun e => .ran moment e.1 e.2

/-- A host as a responder, with a chronicle. -/
def chronicler : Responder Chronicle where
  fallback c := c.host.manager.fallback
  startRun c := ⟨c.host.startRun, []⟩
  endPass _ c := ⟨c.host.endPass, c.log ++ c.host.runs .passEnd⟩
  endRun _ c := ⟨c.host.endRun, c.log ++ (c.host.runs .passEnd ++ c.host.runs .runEnd)⟩
  ask info path? text c :=
    let asked := renderer.responder.ask info path? text c.host
    let dispatch? := (SingleTag.ofText info.delimiters text).toOption.bind fun tag =>
      c.host.dispatch? info path? tag
    (asked.1, ⟨asked.2, c.log ++ dispatch?.toList.map .asked⟩)

theorem refines_chronicler : chronicler.Refines renderer.responder Chronicle.host :=
  ⟨fun _ => rfl, fun _ => rfl, fun _ _ => rfl, fun _ _ => rfl, fun _ _ _ _ => rfl⟩

end Host

namespace Chronicle

/-- What the filters in a list of dispatches left for a moment. -/
def leavings (moment : Script.Moment) (ds : List Dispatch) : List Leaving :=
  ds.flatMap fun d => d.deeds.filterMap (Deed.leaving? moment)

/-- What is run at a moment after these dispatches. -/
def runsAfter (moment : Script.Moment) (ds : List Dispatch) : List Happening :=
  (Leaving.effects (leavings moment ds)).map fun e => .ran moment e.1 e.2

/-- A pass with these dispatches, to its end. -/
def ofPass (ds : List Dispatch) : List Happening := ds.map .asked ++ runsAfter .passEnd ds

/-- What a chronicle tells in a pass, when `passes` have ended and `pass` has been asked since. -/
structure Tells (t : Template) (start : Host) (passes : List (List Dispatch)) (pass : List Dispatch)
    (c : Chronicle) : Prop where
  log : c.log = passes.flatMap ofPass ++ pass.map .asked
  numbered : ∀ i p, passes[i]? = some p → ∀ d ∈ p, d.around.info = t.passInfo i
  current : ∀ d ∈ pass, d.around.info = t.passInfo passes.length
  ended : ∀ p ∈ passes, Leaving.FirstsAdded (leavings .passEnd p)
  passEnd : Leaving.Queued (leavings .passEnd pass) (c.host.waiting .passEnd)
  runEnd : Leaving.Queued (leavings .runEnd (passes.flatten ++ pass)) (c.host.waiting .runEnd)
  store : c.host.manager.store = start.manager.store
  pool : start.pool.Touched start.manager.store (c.log.flatMap Happening.touches) c.host.pool

variable {t : Template} {start : Host} {passes : List (List Dispatch)} {pass : List Dispatch}
  {c : Chronicle}

theorem leavings_append (moment : Script.Moment) (ds ds' : List Dispatch) :
    leavings moment (ds ++ ds') = leavings moment ds ++ leavings moment ds' :=
  List.flatMap_append

theorem tells_start (t : Template) (h : start.AtRest) : Tells t start [] [] ⟨start, []⟩ where
  log := rfl
  numbered := by simp
  current := by simp
  ended := by simp
  passEnd := by
    show Leaving.Queued [] start.manager.passEnd
    rw [h.passEnd]
    exact .empty
  runEnd := by
    show Leaving.Queued [] start.manager.runEnd
    rw [h.runEnd]
    exact .empty
  store := rfl
  pool := .nil _

theorem Tells.asked (h : Tells t start passes pass c) {d : Dispatch}
    (hd : d.around.info = t.passInfo passes.length) (hg : c.host.Grants d.deeds) :
    Tells t start passes (pass ++ [d]) ⟨d.deeds.foldl Host.after c.host, c.log ++ [.asked d]⟩ where
  log := by simp [h.log]
  numbered := h.numbered
  current := by
    intro d' hd'
    rcases List.mem_append.1 hd' with hd' | hd'
    · exact h.current d' hd'
    · rw [List.mem_singleton.1 hd', hd]
  ended := h.ended
  passEnd := by
    have hone : leavings .passEnd [d] = d.deeds.filterMap (Deed.leaving? .passEnd) := by
      simp [leavings]
    rw [leavings_append, hone]
    exact Host.queued_deeds h.passEnd hg
  runEnd := by
    have hone : leavings .runEnd [d] = d.deeds.filterMap (Deed.leaving? .runEnd) := by
      simp [leavings]
    rw [← List.append_assoc, leavings_append, hone]
    exact Host.queued_deeds h.runEnd hg
  store := (Host.deeds_store _ _).trans h.store
  pool := by
    have hdeeds := Host.touched_deeds hg
    rw [h.store] at hdeeds
    simpa [Happening.touches] using h.pool.append hdeeds

theorem runs_eq_runsAfter {h : Host} {moment : Script.Moment} {ds : List Dispatch}
    (hq : Leaving.Queued (leavings moment ds) (h.waiting moment)) :
    h.runs moment = runsAfter moment ds := by
  rw [Host.runs, runsAfter, hq.entries]

theorem touched_runs (h : Host) (moment : Script.Moment) (store : Handle) (pool : Pool) :
    pool.Touched store ((h.runs moment).flatMap Happening.touches)
      (pool.modify store (h.waiting moment).run) := by
  have hrun := (h.waiting moment).touched_run store pool
  have htouches : (h.runs moment).flatMap Happening.touches =
      (h.waiting moment).effects.entries.map fun e => .change e.2 := by
    rw [Host.runs, List.flatMap_map, List.map_eq_flatMap]
    rfl
  rwa [htouches]

theorem Tells.endPass (h : Tells t start passes pass c) : Tells t start (passes ++ [pass]) []
    ⟨c.host.endPass, c.log ++ c.host.runs .passEnd⟩ where
  log := by
    simp only [h.log, runs_eq_runsAfter h.passEnd]
    simp [ofPass]
  numbered := by
    intro i p hp
    rcases Nat.lt_or_ge i passes.length with hi | hi
    · rw [List.getElem?_append_left hi] at hp
      exact h.numbered i p hp
    · rw [List.getElem?_append_right hi, List.getElem?_singleton] at hp
      split at hp
      · cases hp
        obtain rfl : i = passes.length := by omega
        exact h.current
      · cases hp
  current := by simp
  ended := by
    intro p hp
    rcases List.mem_append.1 hp with hp | hp
    · exact h.ended p hp
    · rw [List.mem_singleton.1 hp]
      exact h.passEnd.firsts
  passEnd := .empty
  runEnd := by
    show Leaving.Queued _ (c.host.waiting .runEnd)
    simpa using h.runEnd
  store := h.store
  pool := by
    have hpass := touched_runs c.host .passEnd c.host.manager.store c.host.pool
    rw [h.store] at hpass
    have hall := h.pool.append hpass
    rw [← h.store] at hall
    rw [← h.store, List.flatMap_append]
    exact hall

/-- The chronicle of a run from its start to its end, in passes that made these dispatches. -/
structure IsWhole (t : Template) (start : Host) (passes : List (List Dispatch)) (c : Chronicle) :
    Prop where
  /-- After each pass, and after all of them, effects are run: those that the filters in it left and
  heard to be added, in order. -/
  log : c.log = passes.flatMap ofPass ++ runsAfter .runEnd passes.flatten
  /-- Each dispatch was made in the pass that it is told of. -/
  numbered : ∀ i pass, passes[i]? = some pass → ∀ d ∈ pass, d.around.info = t.passInfo i
  /-- In each pass a filter heard that its effect was added if it was the first under its key, and
  at no other time. -/
  passEnd : ∀ pass ∈ passes, Leaving.FirstsAdded (leavings .passEnd pass)
  runEnd : Leaving.FirstsAdded (leavings .runEnd passes.flatten)
  /-- Of the effects that were left under a key in a pass, the first is run at its end, once. -/
  passEnd_once : ∀ pass ∈ passes, ∀ key, (ofPass pass).filterMap (Happening.effectUnder? key) =
    (Leaving.firstUnder key (leavings .passEnd pass)).toList
  runEnd_once : ∀ key, (runsAfter .runEnd passes.flatten).filterMap (Happening.effectUnder? key) =
    (Leaving.firstUnder key (leavings .runEnd passes.flatten)).toList
  /-- Nothing else has touched the stores, and not in another order. -/
  pool : start.pool.Touched start.manager.store (c.log.flatMap Happening.touches) c.host.pool

theorem runsAfter_under {moment : Script.Moment} {ds : List Dispatch}
    (h : Leaving.FirstsAdded (leavings moment ds)) (key : Text) :
    (runsAfter moment ds).filterMap (Happening.effectUnder? key) =
      (Leaving.firstUnder key (leavings moment ds)).toList := by
  rw [← h.effects_under, runsAfter, List.filterMap_map]
  rfl

theorem ofPass_under {ds : List Dispatch} (h : Leaving.FirstsAdded (leavings .passEnd ds))
    (key : Text) : (ofPass ds).filterMap (Happening.effectUnder? key) =
      (Leaving.firstUnder key (leavings .passEnd ds)).toList := by
  have hasked : (ds.map Happening.asked).filterMap (Happening.effectUnder? key) = [] := by
    simp [Happening.effectUnder?]
  rw [ofPass, List.filterMap_append, hasked, List.nil_append, runsAfter_under h]

theorem Tells.endRun (h : Tells t start passes [] c) : IsWhole t start passes
    ⟨c.host.endRun, c.log ++ (c.host.runs .passEnd ++ c.host.runs .runEnd)⟩ := by
  have hended := h.endPass
  have hnone : c.host.runs .passEnd = [] := runs_eq_runsAfter h.passEnd
  have hruns : c.host.runs .runEnd = runsAfter .runEnd passes.flatten := by
    have hq := h.runEnd
    rw [List.append_nil] at hq
    exact runs_eq_runsAfter hq
  have hfirsts : Leaving.FirstsAdded (leavings .runEnd passes.flatten) := by
    simpa using h.runEnd.firsts
  constructor
  case log => simp [h.log, hnone, hruns]
  case numbered => exact h.numbered
  case passEnd => exact h.ended
  case runEnd => exact hfirsts
  case passEnd_once => exact fun pass hpass => ofPass_under (h.ended pass hpass)
  case runEnd_once => exact runsAfter_under hfirsts
  case pool =>
    have hrun := touched_runs c.host .runEnd c.host.manager.store c.host.endPass.pool
    rw [h.store] at hrun
    have hall := hended.pool.append hrun
    have hpool : c.host.endRun.pool =
      c.host.endPass.pool.modify c.host.manager.store (c.host.waiting .runEnd).run := rfl
    rw [← h.store] at hall
    rw [← h.store, hpool]
    simpa using hall

end Chronicle

namespace Host

open Chronicle

theorem tells_ask {t : Template} {start : Host} {passes : List (List Dispatch)}
    {pass : List Dispatch} {c : Chronicle} (h : Tells t start passes pass c) (path? : Option Path)
    (text : Text) : ∃ more, Tells t start passes (pass ++ more)
      (chronicler.ask (t.passInfo passes.length) path? text c).2 := by
  let info := t.passInfo passes.length
  show ∃ more, Tells t start passes (pass ++ more) (chronicler.ask info path? text c).2
  unfold chronicler renderer Renderer.responder
  dsimp only
  cases SingleTag.ofText info.delimiters text with
  | error e => exact ⟨[], by simpa [Except.toOption] using h⟩
  | ok tag =>
    have hdispatches := c.host.dispatches info path? tag
    unfold Dispatches at hdispatches
    dsimp only [Except.toOption, Option.bind]
    split at hdispatches
    · next installed d _ hd =>
      obtain ⟨-, -, haround, hg, hanswer⟩ := hdispatches
      rw [hanswer, hd]
      exact ⟨[d], h.asked (congrArg Surroundings.info haround) hg⟩
    · next _ hd =>
      rw [hdispatches, hd]
      exact ⟨[], by simpa using h⟩
    · exact hdispatches.elim

/-- In a run with an outcome, of the effects that are left under a key in a pass the first one is
run, at the end of that pass and in front of all that the next one asks, whatever has been left
under the key in other passes. Of those that are left under a key for the end of the run the first
one is run then. Filters hear that an effect is added exactly if it will be run. -/
theorem effects_run_once {t : Template} {h : Host} {o : Outcome}
    (ho : (t.run renderer h).result = .ok o) :
    let run := t.runWith chronicler ⟨h, []⟩
    run.map Chronicle.host = t.run renderer h ∧
      ∃ passes : List (List Dispatch), passes.length = o.passes ∧
        IsWhole t h.startRun passes run.state := by
  intro run
  have hrefines : t.run renderer h = run.map Chronicle.host :=
    runWith_refines refines_chronicler t ⟨h, []⟩
  refine ⟨hrefines.symm, ?_⟩
  have hresult : run.result = .ok o := by
    rw [hrefines] at ho
    exact ho
  obtain ⟨last, ⟨passes, hlength, htells⟩, hlast⟩ := runFrom_between
    (fun n c => ∃ passes, passes.length = n ∧ Tells t h.startRun passes [] c)
    (fun n c => ∃ passes pass, passes.length = n ∧ Tells t h.startRun passes pass c)
    (fun n c ⟨passes, hn, htells⟩ => ⟨passes, [], hn, htells⟩)
    (fun n path? text c ⟨passes, pass, hn, htells⟩ =>
      have ⟨more, hmore⟩ := tells_ask htells path? text
      ⟨passes, pass ++ more, hn, hn ▸ hmore⟩)
    (fun n c ⟨passes, pass, hn, htells⟩ =>
      ⟨passes ++ [pass], by simpa using hn, htells.endPass⟩)
    ⟨[], rfl, tells_start t (atRest_startRun h)⟩ hresult
  refine ⟨passes, hlength, ?_⟩
  have hstate : run.state = chronicler.endRun o last := hlast
  rw [hstate]
  exact htells.endRun

/-- A filter that leaves an effect for the end of the pass and one for the end of the run, and has
its tag looked at twice. -/
def leaver : Filter := fun _ around =>
  .atPassEnd "tick".toList (Script.Edit.count "passes".toList).apply fun _ =>
    .atRunEnd "tock".toList (Script.Edit.count "runs".toList).apply fun _ =>
      if around.info.index = 0 then .pending "[[leave]]".toList else .final []

def leaving : Host :=
  let host := Manager.new ∅
  { host with manager := host.manager.install "leave".toList leaver .template }

/-- Two tags that leave the same effects in each of two passes. -/
theorem effects_run_once_twice : ∃ t, Template.ofText "[[leave]][[leave]]".toList = .ok t ∧
    (t.run renderer leaving).result = .ok ⟨[[]], true, 2⟩ ∧
    let run := t.runWith chronicler ⟨leaving, []⟩
    run.state.log.map Happening.label = [.inl 0, .inl 0, .inr "tick".toList, .inl 1, .inl 1,
      .inr "tick".toList, .inr "tock".toList] ∧
    run.map Chronicle.host = t.run renderer leaving ∧
      ∃ passes : List (List Dispatch), passes.length = 2 ∧
        IsWhole t leaving.startRun passes run.state := by
  let text : Text := "[[leave]][[leave]]".toList
  let tags : Forest Tag := .cons ⟨.inline, ⟨"leave".toList, []⟩, 0, 9⟩ .nil
    (.tree ⟨.inline, ⟨"leave".toList, []⟩, 9, 18⟩ .nil)
  let t : Template := ⟨[text], .single, .standard, ⟨18, tags⟩, [], by decide +kernel⟩
  have hresult : (t.run renderer leaving).result = .ok ⟨[[]], true, 2⟩ := by decide +kernel
  have hlog : (t.runWith chronicler ⟨leaving, []⟩).state.log.map Happening.label =
    [.inl 0, .inl 0, .inr "tick".toList, .inl 1, .inl 1, .inr "tick".toList,
      .inr "tock".toList] := by decide +kernel
  exact ⟨t, Template.read_eq_ok.2 ⟨rfl, rfl, rfl, rfl⟩, hresult, hlog, effects_run_once hresult⟩

end Host

end TagMarkup
