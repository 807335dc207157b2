import TagMarkup.Filter.Script
import TagMarkup.Proofs.Filter.Manager

/-! What a filter does, as a list: its requests, each with the reply that it got. An action with the
replies to its requests leads to one result, whatever gave the replies (`Action.Leads`). A host
carries out an action by deeds that lead through it to its end, and every reply is the host's own at
that time (`perform_leads`, `grants_deeds`). -/

namespace TagMarkup

/-- A request of a filter, and the reply. -/
inductive Deed
  | install (name : Text) (installed : Installed)
  | uninstall (name : Text) (found : Bool)
  | knows (name : Text) (found : Bool)
  | readStore (store : Store)
  | writeStore (change : Effect)
  | leave (moment : Script.Moment) (key : Text) (effect : Effect) (added : Bool)

/-- With these replies the action makes these requests, one after the other, and then ends with this
result. -/
inductive Action.Leads : Action → List Deed → Except FilterError Answer → Prop
  | done (result : Except FilterError Answer) : Leads (.done result) [] result
  | install {next : Action} {deeds : List Deed} {result : Except FilterError Answer} (name : Text)
    (filter : Filter) (splitting : SplitRule) (onward : Leads next deeds result) :
    Leads (.install name filter splitting next) (.install name ⟨filter, splitting⟩ :: deeds) result
  | uninstall {next : Bool → Action} {deeds : List Deed} {result : Except FilterError Answer}
    (name : Text) (found : Bool) (onward : Leads (next found) deeds result) :
    Leads (.uninstall name next) (.uninstall name found :: deeds) result
  | knows {next : Bool → Action} {deeds : List Deed} {result : Except FilterError Answer}
    (name : Text) (found : Bool) (onward : Leads (next found) deeds result) :
    Leads (.knows name next) (.knows name found :: deeds) result
  | readStore {next : Store → Action} {deeds : List Deed} {result : Except FilterError Answer}
    (store : Store) (onward : Leads (next store) deeds result) :
    Leads (.readStore next) (.readStore store :: deeds) result
  | writeStore {next : Action} {deeds : List Deed} {result : Except FilterError Answer}
    (change : Effect) (onward : Leads next deeds result) :
    Leads (.writeStore change next) (.writeStore change :: deeds) result
  | atPassEnd {next : Bool → Action} {deeds : List Deed} {result : Except FilterError Answer}
    (key : Text) (effect : Effect) (added : Bool) (onward : Leads (next added) deeds result) :
    Leads (.atPassEnd key effect next) (.leave .passEnd key effect added :: deeds) result
  | atRunEnd {next : Bool → Action} {deeds : List Deed} {result : Except FilterError Answer}
    (key : Text) (effect : Effect) (added : Bool) (onward : Leads (next added) deeds result) :
    Leads (.atRunEnd key effect next) (.leave .runEnd key effect added :: deeds) result

namespace Host

variable {h : Host}

/-- The effects that wait for a moment. -/
def waiting (h : Host) : Script.Moment → EffectQueue
  | .passEnd => h.manager.passEnd
  | .runEnd => h.manager.runEnd

def withWaiting (h : Host) (queue : EffectQueue) : Script.Moment → Host
  | .passEnd => h.withPassEnd queue
  | .runEnd => h.withRunEnd queue

/-- The host after a request. -/
def after (h : Host) : Deed → Host
  | .install name installed => h.withFilters (h.manager.live.insert name installed)
  | .uninstall name _ => h.withFilters (h.manager.live.erase name)
  | .knows _ _ | .readStore _ => h
  | .writeStore change => h.changeStore change
  | .leave moment key effect _ => h.withWaiting ((h.waiting moment).add key effect).2 moment

/-- The reply is the one that the host gives to the request. -/
def Replies (h : Host) : Deed → Prop
  | .install _ _ | .writeStore _ => True
  | .uninstall name found | .knows name found => found = h.manager.knows name
  | .readStore store => store = h.store
  | .leave moment key effect added => added = ((h.waiting moment).add key effect).1

/-- The host gives the replies, each at its time. -/
def Grants : Host → List Deed → Prop
  | _, [] => True
  | h, deed :: deeds => h.Replies deed ∧ (h.after deed).Grants deeds

/-- The requests of an action that the host carries out. -/
def deeds : Action → Host → List Deed
  | .done _, _ => []
  | .install name filter splitting next, h =>
    let deed : Deed := .install name ⟨filter, splitting⟩
    deed :: deeds next (h.after deed)
  | .uninstall name next, h =>
    let deed : Deed := .uninstall name (h.manager.knows name)
    deed :: deeds (next (h.manager.knows name)) (h.after deed)
  | .knows name next, h =>
    .knows name (h.manager.knows name) :: deeds (next (h.manager.knows name)) h
  | .readStore next, h => .readStore h.store :: deeds (next h.store) h
  | .writeStore change next, h => .writeStore change :: deeds next (h.changeStore change)
  | .atPassEnd key effect next, h =>
    let added := (h.manager.passEnd.add key effect).1
    let deed : Deed := .leave .passEnd key effect added
    deed :: deeds (next added) (h.after deed)
  | .atRunEnd key effect next, h =>
    let added := (h.manager.runEnd.add key effect).1
    let deed : Deed := .leave .runEnd key effect added
    deed :: deeds (next added) (h.after deed)

/-- The deeds lead through the whole action, to the result with which the host ends it. -/
theorem perform_leads (action : Action) (h : Host) :
    action.Leads (deeds action h) (perform action h).1 := by
  induction action generalizing h with
  | done result => exact .done result
  | install name filter splitting next _ ih => exact .install name filter splitting (ih _)
  | uninstall name next ih => exact .uninstall name _ (ih _ _)
  | knows name next ih => exact .knows name _ (ih _ _)
  | readStore next ih => exact .readStore _ (ih _ _)
  | writeStore change next ih => exact .writeStore change (ih _)
  | atPassEnd key effect next ih => exact .atPassEnd key effect _ (ih _ _)
  | atRunEnd key effect next ih => exact .atRunEnd key effect _ (ih _ _)

theorem grants_deeds (action : Action) (h : Host) : h.Grants (deeds action h) := by
  induction action generalizing h with
  | done result => trivial
  | install name filter splitting next _ ih => exact ⟨trivial, ih _⟩
  | writeStore change next ih => exact ⟨trivial, ih _⟩
  | uninstall name next ih | knows name next ih | readStore next ih => exact ⟨rfl, ih _ _⟩
  | atPassEnd key effect next ih | atRunEnd key effect next ih => exact ⟨rfl, ih _ _⟩

/-- An action does nothing besides its deeds. -/
theorem perform_after (action : Action) (h : Host) :
    (perform action h).2 = (deeds action h).foldl after h := by
  induction action generalizing h with
  | done result => rfl
  | install name filter splitting next _ ih => exact ih _
  | writeStore change next ih => exact ih _
  | uninstall name next ih | knows name next ih | readStore next ih => exact ih _ _
  | atPassEnd key effect next ih | atRunEnd key effect next ih => exact ih _ _

end Host

/-- A filter at work on a tag, from its first request to its end. -/
structure Dispatch where
  installed : Installed
  call : Call
  around : Surroundings
  deeds : List Deed
  result : Except FilterError Answer
  leads : (installed.filter call around).Leads deeds result

namespace Host

/-- The filter that a tag finds, at work on the tag. -/
def dispatch? (h : Host) (info : PassInfo) (path? : Option Path) (tag : SingleTag) :
    Option Dispatch :=
  (h.manager.live.get? tag.key).map fun installed =>
    let call := tag.call info.delimiters installed.splitting
    let action := installed.filter call ⟨path?, info⟩
    ⟨installed, call, ⟨path?, info⟩, deeds action h, (perform action h).1, perform_leads action h⟩

/-- The tag is answered by the filter that it finds now, with the splitting that the filter has now:
the filter goes on to its end, whatever it does to the filters on its way. A tag that finds none
changes nothing. -/
def Dispatches (h : Host) (info : PassInfo) (path? : Option Path) (tag : SingleTag) : Prop :=
  match h.manager.live.get? tag.key, h.dispatch? info path? tag with
  | some installed, some d => d.installed = installed ∧
    d.call = tag.call info.delimiters installed.splitting ∧ d.around = ⟨path?, info⟩ ∧
    h.Grants d.deeds ∧
    h.answer info path? tag = (d.result.mapError (.filter tag.key), d.deeds.foldl after h)
  | none, none => h.answer info path? tag = (.error (.unknownKey tag.key), h)
  | _, _ => False

theorem dispatches (h : Host) (info : PassInfo) (path? : Option Path) (tag : SingleTag) :
    h.Dispatches info path? tag := by
  unfold Dispatches dispatch? answer
  cases h.manager.live.get? tag.key with
  | none => exact rfl
  | some installed =>
    refine ⟨rfl, rfl, rfl, grants_deeds _ h, ?_⟩
    rw [← perform_after]

end Host

end TagMarkup
