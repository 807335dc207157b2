import TagMarkup.Proofs.Fragments
import TagMarkup.Proofs.Patchwork.Solid
import TagMarkup.Proofs.Rendering.Recording

/-! A pass over a patchwork, without offsets: the regions are worked through from left to right and
from the inside out, and what a region holds is replaced by its answer. `Pass.work` on a flat text
agrees with it (`work_agrees`): it asks for the same answers, its text and agenda are those of the
resulting patchwork, and the boundaries of the fragments move with the text. -/

namespace TagMarkup

/-- Whether every answer so far was ready, and the state of the responder. -/
structure Standing (σ : Type) where
  ready : Bool
  state : σ

/-- A step of a pass over a patchwork. -/
abbrev PatchM (σ : Type) := ExceptT NoAnswer (StateM (Standing σ))

namespace Patchwork

variable {σ : Type}

/-- What a pending answer leaves to do: the tag that it is, or a group of the tags in it. -/
def ofAnswer (d : Delimiters) (text : Text) : Patchwork :=
  match read d text with
  | .error _ | .ok (plain _) => plain text
  | .ok (patch [] kind inner (plain [])) => one kind inner
  | .ok p => one .group p

/-- The answer for the text of a tag, if there is one. -/
def ask (r : Responder σ) (info : PassInfo) (path? : Option Path) (text : Text) :
    PatchM σ (Except NoAnswer Answer) :=
  modifyGet fun standing =>
    let asked := r.ask info path? text standing.state
    (asked.1, { standing with state := asked.2 })

/-- The answer for the text of a tag, by the fallback if there is none. -/
def answer (r : Responder σ) (info : PassInfo) (fallback : Fallback) (path? : Option Path)
    (text : Text) : PatchM σ Answer := do
  match ← ask r info path? text, fallback with
  | .ok answer, _ => return answer
  | .error _, .retry => return .pending text
  | .error _, .passthrough => return .final text
  | .error cause, .abort => throw cause

/-- Not every tag was ready. -/
def unready : PatchM σ Unit := modify fun standing => { standing with ready := false }

/-- What takes the place of a tag in which nothing is left to do. -/
def settleTag (r : Responder σ) (info : PassInfo) (fallback : Fallback) (path? : Option Path)
    (text : Text) : PatchM σ Patchwork := do
  let answer ← answer r info fallback path? text
  if answer.ready then return plain answer.text
  unready
  if answer.text = text then return one (.tag path?) (plain text)
  return ofAnswer info.delimiters answer.text

/-- What takes the place of a region that holds `inner`. A tag waits until nothing in it is left
to do, and a group is gone then. -/
def settle (r : Responder σ) (info : PassInfo) (fallback : Fallback) :
    RegionKind → Patchwork → PatchM σ Patchwork
  | .group, plain t => return plain t
  | .group, inner => return one .group inner
  | .tag path?, plain t => settleTag r info fallback path? t
  | .tag path?, inner => do
    unready
    return one (.tag path?) inner

/-- Works through a patchwork, and gives the patchwork for the next pass. -/
def work (r : Responder σ) (info : PassInfo) (fallback : Fallback) : Patchwork → PatchM σ Patchwork
  | plain t => return plain t
  | patch before kind inner rest => do
    let inner ← work r info fallback inner
    let left ← settle r info fallback kind inner
    return plain before ++ left ++ (← work r info fallback rest)

variable {d : Delimiters} {base n : Nat} {p : Patchwork} {tags : Forest Tag} {text : Text}

/-- One pass over a patchwork: the patchwork for the next one, and whether every answer was
ready. -/
def pass (r : Responder σ) (info : PassInfo) (p : Patchwork) (state : σ) :
    Except NoAnswer (Patchwork × Bool) × σ :=
  match (p.work r info (r.fallback state)).run ⟨true, state⟩ with
  | (.ok q, standing) => (.ok (q, standing.ready), standing.state)
  | (.error cause, standing) => (.error cause, standing.state)

theorem agenda_of_depicts (h : Depicts d n p tags) :
    p.agenda (base + n) = Agenda.ofAnswerTags base tags := by
  induction h with
  | plain => rfl
  | patch start stop head _ _ ihi ihr =>
    simp only [Agenda.ofAnswerTags, Forest.map, agenda] at ihi ihr ⊢
    simp only [start, stop, ← Nat.add_assoc] at ihi ihr ⊢
    rw [ihi, ihr]

theorem text_ofAnswer (d : Delimiters) (text : Text) : (ofAnswer d text).text = text := by
  unfold ofAnswer
  cases ho : Outline.ofText d text with
  | error e => rw [read_error ho]; rfl
  | ok o =>
    obtain ⟨p, hp, htext, -⟩ := read_of_outline ho
    rw [hp, ← htext]
    split <;> simp_all [one]

theorem agenda_ofAnswer (d : Delimiters) (base : Nat) (text : Text) :
    (ofAnswer d text).agenda base = Agenda.ofAnswer d base text := by
  unfold ofAnswer Agenda.ofAnswer
  cases ho : Outline.ofText d text with
  | error e => rw [read_error ho]; rfl
  | ok o =>
    obtain ⟨p, hp, htext, hdepicts⟩ := read_of_outline ho
    have hagenda : p.agenda base = Agenda.ofAnswerTags base o.tags := agenda_of_depicts hdepicts
    rw [hp, ← htext]
    simp only [← hagenda]
    cases p with
    | plain t => rfl
    | patch before kind inner rest =>
      cases rest with
      | patch before' kind' inner' rest' => cases before <;> simp [agenda, one, Forest.tree]
      | plain last =>
        -- the only region is the whole answer exactly when nothing stands around it
        cases before with
        | cons c before =>
          have := Char.utf8Size_pos c
          simp only [agenda]
          rw [if_neg (by simp; omega)]
          simp [one, agenda, Forest.tree]
        | nil =>
          cases last with
          | nil => simp [one, agenda]
          | cons c last =>
            have := Char.utf8Size_pos c
            simp only [agenda]
            rw [if_neg (by simp; omega)]
            simp [one, agenda, Forest.tree]

theorem ofAnswer_cases (d : Delimiters) (text : Text) :
    ofAnswer d text = plain text ∨ ∃ p tags, Depicts d 0 p tags ∧ p.isPlain = false ∧
      (ofAnswer d text = p ∨ ofAnswer d text = one .group p) := by
  unfold ofAnswer
  cases ho : Outline.ofText d text with
  | error e => rw [read_error ho]; exact .inl rfl
  | ok o =>
    obtain ⟨p, hp, -, hdepicts⟩ := read_of_outline ho
    rw [hp]
    cases p with
    | plain t => exact .inl rfl
    | patch lead kind inner rest =>
      refine .inr ⟨_, o.tags, hdepicts, rfl, ?_⟩
      cases rest with
      | patch lead' kind' inner' rest' => exact .inr (by cases lead <;> rfl)
      | plain last =>
        cases lead with
        | cons c lead => exact .inr rfl
        | nil =>
          cases last with
          | cons c last => exact .inr rfl
          | nil => exact .inl rfl

theorem solid_ofAnswer (d : Delimiters) (text : Text) : (ofAnswer d text).Solid := by
  rcases ofAnswer_cases d text with h | ⟨p, tags, hp, hplain, h | h⟩
  · rw [h]
    exact solid_plain text
  · rw [h]
    exact solid_of_depicts hp
  · rw [h]
    exact .one hplain (solid_of_depicts hp)

section Stepwise

variable {α β : Type} {r : Responder σ} {info : PassInfo} {fallback : Fallback}
  {s : Standing σ}

/-- After the step `m` the standing and the result are as `post` says, or the step stops with a
standing as `stop` says. -/
def Leads (s : Standing σ) (m : PatchM σ α)
    (post : α → Standing σ → Prop) (stop : Standing σ → Prop) : Prop :=
  match m.run s with
  | (.ok a, s') => post a s'
  | (.error _, s') => stop s'

theorem Leads.bind {m : PatchM σ α} {k : α → PatchM σ β}
    {post : α → Standing σ → Prop} {stop stop' : Standing σ → Prop}
    {post' : β → Standing σ → Prop} (h : Leads s m post stop)
    (hk : ∀ a s', post a s' → Leads s' (k a) post' stop') (hs : ∀ s', stop s' → stop' s') :
    Leads s (m >>= k) post' stop' := by
  unfold Leads at h ⊢
  rw [run_bind]
  generalize m.run s = result at h ⊢
  obtain ⟨e | a, s'⟩ := result
  · exact hs s' h
  · exact hk a s' h

theorem Leads.mono {m : PatchM σ α} {post post' : α → Standing σ → Prop}
    {stop stop' : Standing σ → Prop} (h : Leads s m post stop)
    (hp : ∀ a s', post a s' → post' a s') (hs : ∀ s', stop s' → stop' s') :
    Leads s m post' stop' := by
  unfold Leads at h ⊢
  generalize m.run s = result at h ⊢
  obtain ⟨e | a, s'⟩ := result
  · exact hs s' h
  · exact hp a s' h

theorem Leads.pure {a : α} {post : α → Standing σ → Prop}
    {stop : Standing σ → Prop} (h : post a s) : Leads s (Pure.pure a) post stop := h

theorem Leads.any (m : PatchM σ α) : Leads s m (fun _ _ => True) (fun _ => True) := by
  unfold Leads
  split <;> trivial

theorem unready_leads : Leads s unready (fun _ s' => s' = { s with ready := false })
    (fun _ => False) := rfl

/-- What may take the place of a region that holds `inner`. -/
inductive Left (d : Delimiters) : RegionKind → Patchwork → Patchwork → Prop
  | gone (t : Text) : Left d .group (plain t) (plain t)
  | waits (kind : RegionKind) {inner : Patchwork} (open_ : inner.isPlain = false) :
    Left d kind inner (one kind inner)
  | stays (path? : Option Path) (t : Text) :
    Left d (.tag path?) (plain t) (one (.tag path?) (plain t))
  | final (path? : Option Path) (t u : Text) : Left d (.tag path?) (plain t) (plain u)
  | pending (path? : Option Path) (t u : Text) : Left d (.tag path?) (plain t) (ofAnswer d u)

/-- A region that could not be empty leaves no empty regions. -/
theorem Left.solid {kind : RegionKind} {inner left : Patchwork} (h : Left d kind inner left)
    (hk : kind ≠ .group → Holds kind inner) (hi : inner.Solid) : left.Solid := by
  cases h with
  | gone t => exact hi
  | waits kind open_ =>
    cases kind with
    | group => exact .one open_ hi
    | tag path? => exact .one (hk nofun) hi
  | stays path? t => exact .one (hk nofun) hi
  | final path? t u => exact solid_plain u
  | pending path? t u => exact solid_ofAnswer d u

theorem settle_left (kind : RegionKind) (inner : Patchwork) :
    Leads s (settle r info fallback kind inner)
      (fun left _ => Left info.delimiters kind inner left) (fun _ => True) := by
  cases inner with
  | patch lead kind' inner rest =>
    cases kind with
    | group => exact .pure (.waits .group rfl)
    | tag path? =>
      refine (Leads.any unready).bind (fun _ _ _ => ?_) fun _ h => h
      exact .pure (.waits (.tag path?) rfl)
  | plain t =>
    cases kind with
    | group => exact .pure (.gone t)
    | tag path? =>
      refine (Leads.any (answer r info fallback path? t)).bind ?_ fun _ h => h
      rintro ⟨u, ready⟩ s' -
      cases ready with
      | true => exact .pure (.final path? t u)
      | false =>
        refine (Leads.any unready).bind (fun _ s' _ => ?_) fun _ h => h
        show Leads s' (if u = t then _ else _) _ _
        split
        · exact .pure (.stays path? t)
        · exact .pure (.pending path? t u)

theorem work_lead (p : Patchwork) :
    Leads s (work r info fallback p) (fun q _ => p.lead <+: q.lead) (fun _ => True) := by
  cases p with
  | plain t => exact .pure List.prefix_rfl
  | patch lead kind inner rest =>
    refine (Leads.any (work r info fallback inner)).bind (fun inner' _ _ => ?_) fun _ h => h
    refine (Leads.any (settle r info fallback kind inner')).bind (fun left _ _ => ?_) fun _ h => h
    refine (Leads.any (work r info fallback rest)).bind (fun rest' _ _ => .pure ?_) fun _ h => h
    rw [append_assoc, lead_plain_append]
    exact List.prefix_append _ _

end Stepwise

section Agreement

variable {α β γ δ : Type}

/-- On a live text, a step of a pass does what a step over a patchwork does: it stops for want of
the same answer, or its result and the text after it stand in the relation `post` to the result of
the other. Both leave the same standing. -/
def Agrees (live : Live σ) (m : PassM σ α) (m' : PatchM σ β) (post : α → Live σ → β → Prop) :
    Prop :=
  match m'.run ⟨live.ready, live.state⟩ with
  | (.ok b, standing) => ∃ a live', m.run live = (.ok a, live') ∧
      Standing.mk live'.ready live'.state = standing ∧ post a live' b
  | (.error e, standing) => ∃ live', m.run live = (.error (.noAnswer e), live') ∧
      Standing.mk live'.ready live'.state = standing

variable {live : Live σ} {m : PassM σ α} {m' : PatchM σ β} {post : α → Live σ → β → Prop}

theorem Agrees.pure {a : α} {b : β} (h : post a live b) :
    Agrees live (Pure.pure a) (Pure.pure b) post := ⟨a, live, rfl, rfl, h⟩

theorem Agrees.bind {f : α → PassM σ γ} {f' : β → PatchM σ δ} {post' : γ → Live σ → δ → Prop}
    (h : Agrees live m m' post)
    (hf : ∀ a live' b, post a live' b → Agrees live' (f a) (f' b) post') :
    Agrees live (m >>= f) (m' >>= f') post' := by
  unfold Agrees at h ⊢
  rw [run_bind, run_bind]
  generalize m'.run ⟨live.ready, live.state⟩ = result at h ⊢
  obtain ⟨e | b, standing⟩ := result
  · obtain ⟨live', hm, hs⟩ := h
    exact ⟨live', by rw [hm], hs⟩
  · obtain ⟨a, live', hm, rfl, hp⟩ := h
    rw [hm]
    exact hf a live' b hp

/-- A step that asks for nothing has no counterpart. -/
theorem Agrees.of_run {n : PassM σ γ} {f : γ → PassM σ α} {c : γ} {live' : Live σ}
    (hn : n.run live = (.ok c, live')) (hr : live'.ready = live.ready)
    (hs : live'.state = live.state) (h : Agrees live' (f c) m' post) :
    Agrees live (n >>= f) m' post := by
  unfold Agrees at h ⊢
  rwa [run_bind, hn, ← hr, ← hs]

/-- What holds of every result over the patchwork holds besides. -/
theorem Agrees.leads {shape : β → Prop} (h : Agrees live m m' post)
    (hs : Leads ⟨live.ready, live.state⟩ m' (fun b _ => shape b) fun _ => True) :
    Agrees live m m' fun a live' b => post a live' b ∧ shape b := by
  unfold Agrees at h ⊢
  unfold Leads at hs
  generalize m'.run ⟨live.ready, live.state⟩ = result at h hs ⊢
  obtain ⟨e | b, standing⟩ := result
  · exact h
  · obtain ⟨a, live', hm, hstanding, hb⟩ := h
    exact ⟨a, live', hm, hstanding, hb, hs⟩

end Agreement

/-- The same text in the middle of a pass, whatever has been answered. -/
structure SameText (live live' : Live σ) : Prop where
  text : live'.text = live.text
  boundaries : live'.boundaries = live.boundaries
  growth : live'.growth = live.growth

/-- In the live text, between `before` and `after`, a patchwork has taken the place of another one,
and the agenda is what is left to do in it. -/
structure Becomes (live : Live σ) (before after : Text) (old new : Patchwork) (left : Agenda)
    (live' : Live σ) : Prop where
  left : left = new.agenda before.bytes
  text : live'.text = before ++ (new.text ++ after)
  growth : live'.growth + old.text.bytes = live.growth + new.text.bytes

variable {r : Responder σ} {info : PassInfo} {fallback : Fallback} {live : Live σ}
  {before after : Text}

theorem SameText.trans {live' live'' : Live σ} (h : SameText live live')
    (h' : SameText live' live'') : SameText live live'' :=
  ⟨h'.text.trans h.text, h'.boundaries.trans h.boundaries, h'.growth.trans h.growth⟩

theorem unready_agrees : Agrees live Pass.unready unready fun _ live' _ => SameText live live' :=
  ⟨(), _, rfl, rfl, rfl, rfl, rfl⟩

theorem ask_agrees (path? : Option Path) (text : Text) :
    Agrees live (Pass.ask r info path? text) (ask r info path? text)
      fun a live' b => a = b ∧ SameText live live' :=
  ⟨_, _, rfl, rfl, rfl, rfl, rfl, rfl⟩

theorem answer_agrees (path? : Option Path) (text : Text) :
    Agrees live (Pass.answer r info fallback path? text) (answer r info fallback path? text)
      fun a live' b => a = b ∧ SameText live live' := by
  refine (ask_agrees path? text).bind ?_
  rintro asked live' _ ⟨rfl, hsame⟩
  cases asked with
  | ok answer => exact .pure ⟨rfl, hsame⟩
  | error cause =>
    cases fallback with
    | retry | passthrough => exact .pure ⟨rfl, hsame⟩
    | abort => exact ⟨live', rfl, rfl⟩

theorem run_get : (get : PassM σ (Live σ)).run live = (.ok live, live) := rfl

theorem run_replace {middle : Text} (ht : live.text = before ++ (middle ++ after)) (new : Text) :
    (Pass.replace before.bytes (before.bytes + middle.bytes) new).run live = (.ok (), { live with
      text := before ++ (new ++ after)
      boundaries := live.boundaries.map
        (Fragments.move before.bytes (before.bytes + middle.bytes) new.bytes)
      growth := live.growth + (new.bytes - middle.bytes : Int) }) := by
  have hr := Text.replace?_append before middle after new
  rw [← ht] at hr
  have hn : before.bytes + middle.bytes - before.bytes = middle.bytes := by omega
  unfold Pass.replace
  rw [run_bind, run_get]
  dsimp only
  rw [hr, hn]
  rfl

/-- The boundaries of the fragments after a region has been settled: they stay, or a tag has been
replaced and they have moved with the text. -/
def Follows (live : Live σ) (kind : RegionKind) (before : Text) (old new : Patchwork)
    (live' : Live σ) : Prop :=
  (new.text = old.text ∧ live'.boundaries = live.boundaries) ∨
    (kind ≠ .group ∧ live'.boundaries = live.boundaries.map
      (Fragments.move before.bytes (before.bytes + old.text.bytes) new.text.bytes))

theorem SameText.becomes {live' : Live σ} (old new : Patchwork)
    (h : SameText live live') (ht : live.text = before ++ (old.text ++ after))
    (hn : new.text = old.text) :
    Becomes live before after old new (new.agenda before.bytes) live' :=
  ⟨rfl, by rw [h.text, ht, hn], by rw [h.growth, hn]⟩

theorem SameText.follows {live' : Live σ} {kind : RegionKind} {old new : Patchwork}
    (h : SameText live live') (hn : new.text = old.text) :
    Follows live kind before old new live' := .inl ⟨hn, h.boundaries⟩

theorem SameText.replaced {live' : Live σ} (h : SameText live live') (before t after : Text)
    (new : Patchwork) (path? : Option Path) :
    let live'' := { live' with
      text := before ++ (new.text ++ after)
      boundaries := live'.boundaries.map
        (Fragments.move before.bytes (before.bytes + t.bytes) new.text.bytes)
      growth := live'.growth + (new.text.bytes - t.bytes : Int) }
    Becomes live before after (plain t) new (new.agenda before.bytes) live'' ∧
      Follows live (.tag path?) before (plain t) new live'' := by
  have hg := h.growth
  refine ⟨⟨rfl, rfl, ?_⟩, .inr ⟨nofun, ?_⟩⟩
  · simp only [text_plain]
    omega
  · simp only [h.boundaries, text_plain]

theorem run_locate {position n : Nat} (h : (position : Int) + live.growth = n) :
    (Pass.locate position).run live = (.ok n, live) := by
  show (if 0 ≤ (position : Int) + live.growth then
    pure ((position : Int) + live.growth).toNat else _ : PassM σ Nat).run live = _
  rw [if_pos (by omega), h]
  rfl

theorem settleTag_agrees (path? : Option Path) {t : Text}
    (ht : live.text = before ++ (t ++ after)) :
    Agrees live
      (Pass.settleTag r info fallback path? before.bytes (before.bytes + t.bytes))
      (settleTag r info fallback path? t)
      fun left live' new => Becomes live before after (plain t) new left live' ∧
        Follows live (.tag path?) before (plain t) new live' := by
  have hs := Text.slice?_eq_some.2 ⟨before, after, ht, rfl, rfl⟩
  refine Agrees.of_run (n := get) rfl rfl rfl ?_
  simp only [hs]
  refine (answer_agrees path? t).bind ?_
  rintro answer live₁ _ ⟨rfl, h₁⟩
  cases hready : answer.ready with
  | true =>
    simp only [Bool.not_true, Bool.false_eq_true, ↓reduceIte]
    split
    next heq => exact .pure ⟨h₁.becomes (.plain t) _ ht heq, h₁.follows heq⟩
    next =>
      refine Agrees.of_run (run_replace (h₁.text.trans ht) answer.text) rfl rfl (.pure ?_)
      exact h₁.replaced before t after (.plain answer.text) path?
  | false =>
    simp only [Bool.not_false, ↓reduceIte]
    refine unready_agrees.bind fun _ live₂ _ h₂ => ?_
    have h₂ := h₁.trans h₂
    split
    next =>
      refine .pure ⟨?_, h₂.follows (by simp)⟩
      have := h₂.becomes (.plain t) (.one (.tag path?) (.plain t)) ht (by simp)
      rwa [agenda_one] at this
    next =>
      refine Agrees.of_run (run_replace (h₂.text.trans ht) answer.text) rfl rfl (.pure ?_)
      have := h₂.replaced before t after (ofAnswer info.delimiters answer.text) path?
      simpa only [text_ofAnswer, agenda_ofAnswer, Bool.false_eq_true, ↓reduceIte] using this

theorem settle_agrees (kind : RegionKind) {p : Patchwork}
    (ht : live.text = before ++ (p.text ++ after)) :
    Agrees live
      (Pass.settle r info fallback kind before.bytes (before.bytes + p.text.bytes)
        (p.agenda before.bytes))
      (settle r info fallback kind p)
      fun left live' new => Becomes live before after p new left live' ∧
        Follows live kind before p new live' := by
  have hsame : SameText live live := ⟨rfl, rfl, rfl⟩
  cases kind with
  | group =>
    cases p with
    | plain t => exact .pure ⟨hsame.becomes _ _ ht rfl, hsame.follows rfl⟩
    | patch lead kind inner rest =>
      refine .pure ⟨?_, hsame.follows (by simp)⟩
      have := hsame.becomes _ (.one .group (.patch lead kind inner rest)) ht (by simp)
      rwa [agenda_one] at this
  | tag path? =>
    cases p with
    | plain t => exact settleTag_agrees path? ht
    | patch lead kind inner rest =>
      refine unready_agrees.bind fun _ live' _ h => .pure ⟨?_, h.follows (by simp)⟩
      have := h.becomes _ (.one (.tag path?) (.patch lead kind inner rest)) ht (by simp)
      rwa [agenda_one] at this

/-- The boundaries have moved as when one patchwork behind `before` has taken the place of another
one. -/
def Moves (live : Live σ) (before : Text) (old new : Patchwork) (live' : Live σ) : Prop :=
  ∃ f, live'.boundaries = live.boundaries.map f ∧
    Fragments.Carries f before.bytes (before ++ old.text).bytes (before ++ new.text).bytes

theorem Follows.moves {live' : Live σ} {kind : RegionKind} {old new : Patchwork}
    (h : Follows live kind before old new live') (hk : kind ≠ .group → old.text ≠ []) :
    Moves live before old new live' := by
  rcases h with ⟨hsame, hb⟩ | ⟨hgroup, hb⟩
  · refine ⟨id, by rw [hb, List.map_id], ?_⟩
    rw [hsame]
    exact .refl _ _
  · have hpos := Text.bytes_pos.2 (hk hgroup)
    refine ⟨_, hb, ?_⟩
    rw [Text.bytes_append, Text.bytes_append]
    exact .of_move (by omega)

theorem Moves.region {lead : Text} {kind : RegionKind} {inner inner' left rest rest' : Patchwork}
    {live₁ live₂ live₃ : Live σ} (hi : Moves live (before ++ lead) inner inner' live₁)
    (hs : Moves live₁ (before ++ lead) inner' left live₂)
    (hr : Moves live₂ (before ++ lead ++ left.text) rest rest' live₃) :
    Moves live before (patch lead kind inner rest) (plain lead ++ left ++ rest') live₃ := by
  obtain ⟨f, hf, hcf⟩ := hi
  obtain ⟨g, hg, hcg⟩ := hs
  obtain ⟨h, hh, hch⟩ := hr
  refine ⟨h ∘ (g ∘ f), by simp [hh, hg, hf], ?_⟩
  rw [Text.bytes_append (before ++ lead ++ left.text) rest.text] at hch
  have hall := ((hcf.trans hcg).append hch (by simp)).mono
    (show before.bytes ≤ (before ++ lead).bytes by simp)
  simpa [Nat.add_assoc] using hall

/-- A pass over the flat text agrees with the pass over the patchwork. -/
theorem work_agrees {p : Patchwork} {base : Nat} (before : Text)
    (ht : live.text = before ++ (p.text ++ after))
    (hb : (base : Int) + live.growth = before.bytes) :
    Agrees live (Pass.work r info fallback (p.agenda base)) (work r info fallback p)
      fun left live' new => Becomes live before after p new left live' ∧
        (p.Solid → Moves live before p new live') := by
  induction p generalizing base before after live with
  | plain t => exact .pure ⟨⟨rfl, ht, rfl⟩, fun _ => ⟨id, by simp, .refl _ _⟩⟩
  | patch lead kind inner rest ihi ihr =>
    simp only [text, List.append_assoc] at ht
    refine Agrees.of_run (run_locate (n := (before ++ lead).bytes) (by simp; omega)) rfl rfl ?_
    refine ((ihi (before ++ lead) (by simpa using ht) (by simp; omega)).leads
      (work_lead inner)).bind ?_
    rintro _ live₁ inner' ⟨⟨⟨rfl, ht₁, hg₁⟩, hm₁⟩, hlead⟩
    have hstop : ((base + lead.bytes + inner.text.bytes : Nat) : Int) + live₁.growth =
        (before ++ lead).bytes + inner'.text.bytes := by simp; omega
    refine Agrees.of_run (run_locate (n := (before ++ lead).bytes + inner'.text.bytes)
      (by exact_mod_cast hstop)) rfl rfl ?_
    refine (settle_agrees kind ht₁).bind ?_
    rintro _ live₂ left ⟨⟨rfl, ht₂, hg₂⟩, hfollows⟩
    refine (ihr (before ++ lead ++ left.text) (by simpa using ht₂)
      (by simp at hstop ⊢; omega)).bind ?_
    rintro _ live₃ rest' ⟨⟨rfl, ht₃, hg₃⟩, hm₃⟩
    refine .pure ⟨⟨?_, ?_, ?_⟩, ?_⟩
    · simp
    · simpa using ht₃
    · simp; omega
    · rintro ⟨hholds, hinner, hrest⟩
      -- a tag still has the text that it began with
      have hm₂ := hfollows.moves fun hk => by
        cases kind with
        | group => exact absurd rfl hk
        | tag path? =>
          refine text_ne_nil_of_lead fun hnil => hholds ?_
          rw [hnil] at hlead
          exact List.prefix_nil.1 hlead
      exact (hm₁ hinner).region hm₂ (hm₃ hrest)

end Patchwork

end TagMarkup
