import TagMarkup.Proofs.Filter.Deeds
import TagMarkup.Proofs.Filter.Rest

/-! The two levels of a manager's filters. What is done to the manager itself changes its own
filters and those that tags find; what filters do changes only the latter; and a reset, as at the
start and the end of a run, makes them the manager's own again. So both levels can be replayed from
what has been done (`registries_replay`). -/

namespace TagMarkup

/-- Filters by name, however they are kept. -/
abbrev Registry := Text → Option Installed

/-- One filter is put under a name or taken away from it. -/
inductive FilterChange
  | put (name : Text) (installed : Installed)
  | drop (name : Text)

def FilterChange.apply (registry : Registry) : FilterChange → Registry
  | put name installed => fun k => if k = name then some installed else registry k
  | drop name => fun k => if k = name then none else registry k

/-- The changes, one after the other. -/
def Registry.replay (registry : Registry) (changes : List FilterChange) : Registry :=
  changes.foldl FilterChange.apply registry

theorem Registry.replay_append (registry : Registry) (cs cs' : List FilterChange) :
    registry.replay (cs ++ cs') = (registry.replay cs).replay cs' :=
  List.foldl_append

def Deed.filterChange? : Deed → Option FilterChange
  | .install name installed => some (.put name installed)
  | .uninstall name _ => some (.drop name)
  | _ => none

/-- What is done to a manager, by its user or in a run. -/
inductive Command
  | install (name : Text) (filter : Filter) (splitting : SplitRule)
  | uninstall (name : Text)
  | reset
  | startRun
  | answer (info : PassInfo) (path? : Option Path) (tag : SingleTag)
  | endPass
  | endRun

namespace Host

def own (h : Host) : Registry := h.manager.own.get?

def live (h : Host) : Registry := h.manager.live.get?

def obey (h : Host) : Command → Host
  | .install name filter splitting => { h with manager := h.manager.install name filter splitting }
  | .uninstall name => { h with manager := (h.manager.uninstall name).2 }
  | .reset => { h with manager := h.manager.reset }
  | .startRun => h.startRun
  | .answer info path? tag => (h.answer info path? tag).2
  | .endPass => h.endPass
  | .endRun => h.endRun

def obeyAll (h : Host) (commands : List Command) : Host := commands.foldl obey h

end Host

namespace Command

/-- The change that a user makes to the manager. -/
def change? : Command → Option FilterChange
  | install name filter splitting => some (.put name ⟨filter, splitting⟩)
  | uninstall name => some (.drop name)
  | _ => none

/-- Whether the filters that tags find are afterwards the manager's own. -/
def Restores : Command → Prop
  | reset | startRun | endRun => True
  | _ => False

/-- The changes that a command makes to the filters that tags find, other than to restore them: the
change of a user, or what the filter does that a tag finds. -/
def changes (h : Host) : Command → List FilterChange
  | answer info path? tag =>
    ((h.dispatch? info path? tag).map (·.deeds.filterMap Deed.filterChange?)).getD []
  | c => c.change?.toList

/-- The changes that commands make one after the other. -/
def allChanges : Host → List Command → List FilterChange
  | _, [] => []
  | h, c :: cs => c.changes h ++ allChanges (h.obey c) cs

end Command

namespace Host

theorem apply_after (h : Host) (deed : Deed) :
    (h.after deed).own = h.own ∧ (h.after deed).live = h.live.replay deed.filterChange?.toList := by
  cases deed with
  | install name installed => exact ⟨rfl, funext fun k => Table.get?_insert _ _ _ k⟩
  | uninstall name found => exact ⟨rfl, funext fun k => Table.get?_erase _ _ k⟩
  | knows | readStore | writeStore => exact ⟨rfl, rfl⟩
  | leave moment key effect added => cases moment <;> exact ⟨rfl, rfl⟩

theorem replay_deeds (h : Host) (deeds : List Deed) :
    (deeds.foldl after h).own = h.own ∧
      (deeds.foldl after h).live = h.live.replay (deeds.filterMap Deed.filterChange?) := by
  induction deeds generalizing h with
  | nil => exact ⟨rfl, rfl⟩
  | cons deed deeds ih =>
    obtain ⟨hown, hlive⟩ := h.apply_after deed
    obtain ⟨howns, hlives⟩ := ih (h.after deed)
    refine ⟨howns.trans hown, ?_⟩
    rw [List.foldl_cons, hlives, hlive, ← Registry.replay_append]
    cases hc : deed.filterChange? <;> simp [hc]

theorem replay_answer (h : Host) (info : PassInfo) (path? : Option Path) (tag : SingleTag) :
    (h.answer info path? tag).2.own = h.own ∧
      (h.answer info path? tag).2.live =
        h.live.replay (Command.changes h (.answer info path? tag)) := by
  have hchanges : Command.changes h (.answer info path? tag) =
    ((h.dispatch? info path? tag).map (·.deeds.filterMap Deed.filterChange?)).getD [] := rfl
  have hdispatches := h.dispatches info path? tag
  unfold Dispatches at hdispatches
  split at hdispatches
  · next installed d _ hd =>
    obtain ⟨-, -, -, -, hanswer⟩ := hdispatches
    rw [hanswer, hchanges, hd]
    exact h.replay_deeds d.deeds
  · next _ hd =>
    rw [hdispatches, hchanges, hd]
    exact ⟨rfl, rfl⟩
  · exact hdispatches.elim

theorem own_obey (h : Host) (c : Command) : (h.obey c).own = h.own.replay c.change?.toList := by
  cases c with
  | install name filter splitting => exact funext fun k => Table.get?_insert _ _ _ k
  | uninstall name => exact funext fun k => Table.get?_erase _ _ k
  | startRun => exact congrArg Table.get? (startRun_own h)
  | answer info path? tag => exact (h.replay_answer info path? tag).1
  | reset | endPass | endRun => rfl

theorem live_obey {c : Command} (h : Host) (hc : ¬ c.Restores) :
    (h.obey c).live = h.live.replay (c.changes h) := by
  cases c with
  | install name filter splitting => exact funext fun k => Table.get?_insert _ _ _ k
  | uninstall name => exact funext fun k => Table.get?_erase _ _ k
  | answer info path? tag => exact (h.replay_answer info path? tag).2
  | endPass => rfl
  | reset | startRun | endRun => exact absurd trivial hc

theorem live_obey_of_restores {c : Command} (h : Host) (hc : c.Restores) :
    (h.obey c).live = h.own := by
  cases c with
  | reset | endRun => rfl
  | startRun =>
    have hlive := congrArg Table.get? (atRest_startRun h).live
    exact hlive.trans (congrArg Table.get? (startRun_own h))
  | install | uninstall | answer | endPass => exact hc.elim

theorem own_obeyAll (h : Host) (commands : List Command) :
    (h.obeyAll commands).own = h.own.replay (commands.filterMap Command.change?) := by
  induction commands generalizing h with
  | nil => rfl
  | cons c cs ih =>
    have hrest := ih (h.obey c)
    rw [own_obey, ← Registry.replay_append] at hrest
    refine hrest.trans ?_
    cases hc : c.change? <;> simp [hc]

theorem live_obeyAll (h : Host) {commands : List Command} (hc : ∀ c ∈ commands, ¬ c.Restores) :
    (h.obeyAll commands).live = h.live.replay (Command.allChanges h commands) := by
  induction commands generalizing h with
  | nil => rfl
  | cons c cs ih =>
    have hrest := ih (h.obey c) fun c' hc' => hc c' (List.mem_cons_of_mem _ hc')
    rw [h.live_obey (hc c List.mem_cons_self), ← Registry.replay_append] at hrest
    exact hrest

theorem obeyAll_append (h : Host) (cs cs' : List Command) :
    h.obeyAll (cs ++ cs') = (h.obeyAll cs).obeyAll cs' :=
  List.foldl_append

theorem obeyAll_concat (h : Host) (cs : List Command) (c : Command) :
    h.obeyAll (cs ++ [c]) = (h.obeyAll cs).obey c :=
  h.obeyAll_append cs [c]

/-- A run is a start and commands after it. -/
theorem exists_obeyAll_of_run (t : Template) (h : Host) :
    ∃ commands, (t.run renderer h).state = h.obeyAll (.startRun :: commands) := by
  have hkeeps : renderer.responder.Keeps fun h' =>
      ∃ commands, h' = h.startRun.obeyAll commands := by
    constructor
    · rintro info _ ⟨cs, rfl⟩
      exact ⟨cs ++ [Command.endPass], (h.startRun.obeyAll_concat cs .endPass).symm⟩
    · rintro o _ ⟨cs, rfl⟩
      exact ⟨cs ++ [Command.endRun], (h.startRun.obeyAll_concat cs .endRun).symm⟩
    · rintro info path? text _ ⟨cs, rfl⟩
      unfold Renderer.responder
      dsimp only
      cases SingleTag.ofText info.delimiters text with
      | error e => exact ⟨cs, rfl⟩
      | ok tag =>
        exact ⟨cs ++ [Command.answer info path? tag],
          (h.startRun.obeyAll_concat cs (.answer info path? tag)).symm⟩
  exact hkeeps.runWith ⟨[], rfl⟩ t

/-- The manager's own filters are what its user has made them. Those that tags find are the
manager's own at the last time they were restored, with all that users and filters have changed
since then. And each tag is answered by what was under its key when it was its turn. -/
theorem registries_replay (h : Host) (commands : List Command) :
    (h.obeyAll commands).own = h.own.replay (commands.filterMap Command.change?) ∧
    (∀ before c since, commands = before ++ c :: since → c.Restores →
      (∀ c' ∈ since, ¬ c'.Restores) → (h.obeyAll commands).live =
        (h.obeyAll before).own.replay
          (Command.allChanges (h.obeyAll (before ++ [c])) since)) ∧
    ((∀ c ∈ commands, ¬ c.Restores) →
      (h.obeyAll commands).live = h.live.replay (Command.allChanges h commands)) ∧
    ∀ before info path? tag since, commands = before ++ .answer info path? tag :: since →
      (h.obeyAll before).Dispatches info path? tag := by
  refine ⟨h.own_obeyAll commands, ?_, h.live_obeyAll, ?_⟩
  · rintro before c since rfl hc hsince
    rw [h.obeyAll_append, h.obeyAll_concat, ← live_obey_of_restores _ hc]
    exact live_obeyAll _ hsince
  · rintro before info path? tag since rfl
    exact (h.obeyAll before).dispatches info path? tag

end Host

end TagMarkup
