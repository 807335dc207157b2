import TagMarkup.Proofs.Outline.Draft
import TagMarkup.Proofs.Patchwork
import TagMarkup.Proofs.Tag.Head

/-! A patchwork read from tokens, without offsets: every token adds its own text to the innermost
open tag, and a tag that ends becomes a region of the one around it. The patchwork of a text that
can be read has that text, and its regions are the tags of the outline (`read_of_outline`). -/

namespace TagMarkup

open Cursor (firstStage)

/-- A patchwork in the making: the open tags, innermost first, each with whether its block header
is still open and what has been read of it, and what stands before all of them. -/
structure Sketch where
  opened : List (Bool × Patchwork)
  done : Patchwork

namespace Sketch

def empty : Sketch := ⟨[], .plain []⟩

/-- A patchwork added where the reading stands. -/
def add (p : Patchwork) (s : Sketch) : Sketch :=
  match s.opened with
  | [] => { s with done := s.done ++ p }
  | (header, q) :: outer => { s with opened := (header, q ++ p) :: outer }

/-- A tag, or the header of a block tag, ends with a closer. -/
def close (closer : Text) (s : Sketch) : Sketch :=
  match s.opened with
  | [] => s.add (.plain closer)
  | (true, q) :: outer => { s with opened := (false, q ++ Patchwork.plain closer) :: outer }
  | (false, q) :: outer =>
    { s with opened := outer }.add (.one (.tag none) (q ++ Patchwork.plain closer))

/-- The sketch after one more token. -/
def next (s : Sketch) (token : Token) : Sketch :=
  match token.kind with
  | .inlineOpen => { s with opened := (false, .plain token.text) :: s.opened }
  | .blockOpen => { s with opened := (true, .plain token.text) :: s.opened }
  | .close => s.close token.text
  | _ => s.add (.plain token.text)

end Sketch

/-- The patchwork of a text that can be read as a whole. -/
def Patchwork.read (d : Delimiters) (text : Text) : Except MarkupError Patchwork :=
  (tokenize d text).map fun tokens => (tokens.foldl Sketch.next .empty).done

/-- The regions of a patchwork whose text begins at the offset `base` are tags as an outline has
them. -/
inductive Depicts (d : Delimiters) : Nat → Patchwork → Forest Tag → Prop
  | plain (base : Nat) (t : Text) : Depicts d base (.plain t) .nil
  | patch {base : Nat} {before : Text} {inner rest : Patchwork} {tag : Tag}
      {inside after : Forest Tag} (start : tag.start = base + before.bytes)
      (stop : tag.stop = tag.start + inner.text.bytes)
      (head : Headed d tag.kind tag.call.key inner.lead)
      (inner_tags : Depicts d tag.start inner inside)
      (rest_tags : Depicts d tag.stop rest after) :
      Depicts d base (.patch before (.tag none) inner rest) (.cons tag inside after)

theorem Depicts.append {d : Delimiters} {base : Nat} {p q : Patchwork} {f g : Forest Tag}
    (hp : Depicts d base p f) (hq : Depicts d (base + p.text.bytes) q g) :
    Depicts d base (p ++ q) (f ++ g) := by
  induction hp with
  | plain base t =>
    cases hq with
    | plain => exact .plain _ _
    | patch start stop head inner rest =>
      exact .patch (by simp [start, Nat.add_assoc]) stop head inner rest
  | @patch base before inner rest tag inside after start stop head hinner hrest _ ih =>
    refine .patch start stop head hinner (ih ?_)
    simpa [start, stop, Nat.add_assoc] using hq

theorem Depicts.one {d : Delimiters} {inner : Patchwork} {tag : Tag} {inside : Forest Tag}
    (stop : tag.stop = tag.start + inner.text.bytes)
    (head : Headed d tag.kind tag.call.key inner.lead) (h : Depicts d tag.start inner inside) :
    Depicts d tag.start (.one (.tag none) inner) (.tree tag inside) :=
  .patch (by simp) stop head h (.plain _ _)

/-- The head of an open tag of which `p` has been read and `after` follows. As long as the key may
still be read there is nothing but the opener and the key, of which no more follows once there is
one; after that the text read so far is headed. -/
def HeadRead (d : Delimiters) (u : Unclosed) (named : Bool) (p : Patchwork) (after : Text) : Prop :=
  if u.part = .key then
    p = .plain (d.openerOf u.kind ++ u.key) ∧
      (u.kind = .inline → ¬ d.blockOpener <+: p.text ++ after) ∧
      if named then leadingKey (u.key ++ after) = u.key else u.key = []
  else Headed d u.kind u.key p.lead

/-- The key of a tag ends where no more of it may come and a mark follows: the head is read. -/
theorem HeadRead.headed {d : Delimiters} {u : Unclosed} {named : Bool} {p : Patchwork}
    {mark rest : Text} (h : HeadRead d u named p (mark ++ rest))
    (keyRead : named = true ∨ leadingKey (mark ++ rest) = [])
    (hm : mark = d.sep ∨ mark = d.closer) : Headed d u.kind u.key (p ++ .plain mark).lead := by
  unfold HeadRead at h
  split at h
  · obtain ⟨rfl, hkind, hkey⟩ := h
    have hne : mark ≠ [] := by
      rcases hm with rfl | rfl
      · exact d.sep_ne_nil
      · exact d.closer_ne_nil
    have hkey' : leadingKey (u.key ++ (mark ++ rest)) = u.key := by
      rcases keyRead with rfl | hk
      · exact hkey
      · split at hkey
        · exact hkey
        · rw [hkey]; exact hk
    refine ⟨mark, hm, by simpa using leadingKey_append hne rest [] hkey', fun hi hb => ?_, ?_⟩
    · refine hkind hi (hb.trans ?_)
      simp only [Patchwork.text_plain, ← List.append_assoc]
      exact List.prefix_append _ _
    · simp [Patchwork.lead]
  · exact h.mono (p.lead_isPrefix_append _)

/-- An open tag as the reader, the outline and the sketch have it, when `p` has been read of it and
`after` follows to the end of the text `source`. -/
structure Layer (d : Delimiters) (source : Text) (o : OpenTag) (u : Unclosed) (header : Bool)
    (p : Patchwork) (after : Text) : Prop where
  kind : u.kind = o.stage.kind
  part : u.part = o.stage.part
  header : header = o.stage.inHeader
  start : u.start + (p.text ++ after).bytes = source.bytes
  inner : Depicts d u.start p u.inner
  head : HeadRead d u o.stage.named p after

/-- The open tags, innermost first, when `after` follows: layer by layer, and outside of them what
is finished. A tag with another one open inside it has been read past its key. -/
inductive Layers (d : Delimiters) (source : Text) (done : Patchwork) (finished : Forest Tag) :
    List OpenTag → List Unclosed → List (Bool × Patchwork) → Text → Prop
  | base {after : Text} (all : done.text ++ after = source) (depicts : Depicts d 0 done finished) :
      Layers d source done finished [] [] [] after
  | layer {o : OpenTag} {u : Unclosed} {header : Bool} {p : Patchwork} {os : List OpenTag}
      {us : List Unclosed} {ss : List (Bool × Patchwork)} {after : Text}
      (top : Layer d source o u header p after)
      (free : ∀ tag ∈ os.head?, tag.stage.holdsTags = true)
      (outer : Layers d source done finished os us ss (p.text ++ after)) :
      Layers d source done finished (o :: os) (u :: us) ((header, p) :: ss) after

variable {d : Delimiters} {source : Text}

variable {o : OpenTag} {os : List OpenTag} {u u' : Unclosed} {us : List Unclosed}
  {header header' : Bool}
  {p : Patchwork} {ss : List (Bool × Patchwork)} {done : Patchwork} {finished : Forest Tag}
  {lexeme after : Text}

theorem Layer.headed (h : Layer d source o u header p after) (hpart : o.stage.part ≠ .key) :
    Headed d u.kind u.key p.lead := by
  have := h.head
  unfold HeadRead at this
  rwa [if_neg (by rw [h.part]; exact hpart)] at this

theorem Layer.headed_mark (h : Layer d source o u header p (lexeme ++ after))
    (keyRead : o.stage.named = true ∨ leadingKey (lexeme ++ after) = [])
    (hm : o.stage.part = .key → lexeme = d.sep ∨ lexeme = d.closer) :
    Headed d u.kind u.key (p ++ .plain lexeme).lead := by
  by_cases hpart : o.stage.part = .key
  · exact h.head.headed keyRead (hm hpart)
  · exact (h.headed hpart).mono (p.lead_isPrefix_append _)

theorem Layers.advance (top : Layer d source o u header p (lexeme ++ after))
    (free : ∀ tag ∈ os.head?, tag.stage.holdsTags = true)
    (outer : Layers d source done finished os us ss (p.text ++ (lexeme ++ after))) (stage : Stage)
    (hu : u'.kind = u.kind ∧ u'.start = u.start ∧ u'.inner = u.inner)
    (kind : stage.kind = o.stage.kind) (part : u'.part = stage.part)
    (inHeader : header' = stage.inHeader)
    (head : HeadRead d u' stage.named (p ++ .plain lexeme) after) :
    Layers d source done finished ({ o with stage } :: os) (u' :: us)
      ((header', p ++ .plain lexeme) :: ss) after := by
  refine .layer ⟨by rw [hu.1, top.kind, kind], part, inHeader, ?_, ?_, head⟩ free
    (by simpa using outer)
  · simpa [hu.2.1] using top.start
  · rw [hu.2.1, hu.2.2, ← Forest.append_nil u.inner]
    exact top.inner.append (.plain _ _)

theorem Layers.add {q : Patchwork} {g : Forest Tag} {n : Nat}
    (h : Layers d source done finished os us ss (q.text ++ after))
    (free : ∀ tag ∈ os.head?, tag.stage.holdsTags = true) (hq : Depicts d n q g)
    (hn : n + (q.text ++ after).bytes = source.bytes) :
    let sketch := Sketch.add q ⟨ss, done⟩
    let draft := Draft.add g ⟨us, finished⟩
    Layers d source sketch.done draft.finished os draft.opened sketch.opened after := by
  cases h with
  | base all depicts =>
    refine .base (by simpa [Sketch.add] using all) (depicts.append ?_)
    obtain rfl : 0 + done.text.bytes = n := by
      rw [← all] at hn
      simp only [Text.bytes_append] at hn
      omega
    exact hq
  | @layer o u header p os us ss _ top free' outer =>
    refine .layer ⟨top.kind, top.part, top.header, by simpa using top.start, ?_, ?_⟩ free'
      (by rw [Patchwork.text_append, List.append_assoc]; exact outer)
    · refine top.inner.append ?_
      obtain rfl : u.start + p.text.bytes = n := by
        have := top.start
        simp only [Text.bytes_append] at hn this
        omega
      exact hq
    · have hpart : o.stage.part ≠ .key := by
        rcases Stage.part_of_holdsTags (free o rfl) with h | h <;> simp [h]
      unfold HeadRead
      rw [if_neg (by simp [top.part, hpart])]
      exact (top.headed hpart).mono (p.lead_isPrefix_append q)

/-- The tags that the reader, the outline and the sketch have open when `after` follows are the
same. -/
def Tallies (d : Delimiters) (source : Text) (opened : List OpenTag) (draft : Draft)
    (sketch : Sketch) (after : Text) : Prop :=
  Layers d source sketch.done draft.finished opened draft.opened sketch.opened after

/-! One lemma for each move: what the reader, the outline and the sketch make of its token. -/

section Moves

variable {draft : Draft} {sketch : Sketch} {tag : OpenTag} {stage : Stage} {start depth : Nat}

theorem Tallies.text (h : Tallies d source os draft sketch (lexeme ++ after))
    (free : ∀ tag ∈ os.head?, tag.stage.holdsTags = true)
    (hpos : start + (lexeme ++ after).bytes = source.bytes) :
    Tallies d source os (draft.next d source ⟨.text, start, lexeme, depth⟩)
      (sketch.next ⟨.text, start, lexeme, depth⟩) after := by
  have hadd := Layers.add (q := .plain lexeme) (g := .nil) h free (.plain _ _) hpos
  rwa [Draft.add_nil] at hadd

theorem Tallies.opening (kind : TagKind)
    (h : Tallies d source os draft sketch (d.openerOf kind ++ after))
    (free : ∀ tag ∈ os.head?, tag.stage.holdsTags = true)
    (hpos : start + (d.openerOf kind ++ after).bytes = source.bytes)
    (hblock : kind = .inline → ¬ d.blockOpener <+: d.openerOf kind ++ after) :
    Tallies d source (⟨firstStage kind, start⟩ :: os)
      (draft.next d source ⟨Cursor.openToken kind, start, d.openerOf kind, depth⟩)
      (sketch.next ⟨Cursor.openToken kind, start, d.openerOf kind, depth⟩) after := by
  have hlayer : Layer d source ⟨firstStage kind, start⟩ (.opened kind start)
      (firstStage kind).inHeader (.plain (d.openerOf kind)) after := by
    refine ⟨?_, ?_, rfl, hpos, .plain _ _, by simp [Unclosed.opened], hblock, ?_⟩
    · cases kind <;> rfl
    · cases kind <;> rfl
    · cases kind <;> rfl
  cases kind <;> exact .layer hlayer free h

theorem Tallies.key (h : Tallies d source (tag :: os) draft sketch (lexeme ++ after))
    (keyed : tag.stage.keyed? = some stage) (reads : leadingKey (lexeme ++ after) = lexeme) :
    Tallies d source ({ tag with stage } :: os)
      (draft.next d source ⟨.key, start, lexeme, depth⟩)
      (sketch.next ⟨.key, start, lexeme, depth⟩) after := by
  obtain ⟨us, finished⟩ := draft
  obtain ⟨ss, done⟩ := sketch
  cases h with
  | @layer _ u header p _ us ss _ top free outer =>
  obtain ⟨hkind, hpart', hheader, hunnamed, hnamed⟩ := Stage.of_keyed? keyed
  have hmodify : Draft.modify (fun u => if u.part = .key then { u with key := lexeme } else u)
      ⟨u :: us, finished⟩ =
        ⟨(if u.part = .key then { u with key := lexeme } else u) :: us, finished⟩ := rfl
  by_cases hpart : u.part = .key
  · have head := top.head
    rw [HeadRead, if_pos hpart, hunnamed] at head
    obtain ⟨rfl, hinline, hkey⟩ := head
    rw [if_neg (by simp)] at hkey
    have head : HeadRead d { u with key := lexeme } stage.named
        (.plain (d.openerOf u.kind ++ u.key) ++ .plain lexeme) after := by
      rw [HeadRead, if_pos hpart, hnamed, if_pos rfl, hkey]
      refine ⟨by simp, fun hk => ?_, reads⟩
      simpa [hkey] using hinline hk
    simp only [Draft.next, hmodify, if_pos hpart]
    exact Layers.advance top free outer stage ⟨rfl, rfl, rfl⟩ hkind
      (top.part.trans hpart'.symm) (top.header.trans hheader.symm) head
  · have head : HeadRead d u stage.named (p ++ .plain lexeme) after := by
      rw [HeadRead, if_neg hpart]
      exact (top.headed (top.part ▸ hpart)).mono (p.lead_isPrefix_append _)
    simp only [Draft.next, hmodify, if_neg hpart]
    exact Layers.advance top free outer stage ⟨rfl, rfl, rfl⟩ hkind
      (top.part.trans hpart'.symm) (top.header.trans hheader.symm) head

theorem Tallies.sep (level : Level)
    (h : Tallies d source (tag :: os) draft sketch (d.sepOf level ++ after))
    (hstage : tag.stage.afterSep? level = some stage)
    (keyRead : tag.stage.named = true ∨ leadingKey (d.sepOf level ++ after) = []) :
    Tallies d source ({ tag with stage } :: os)
      (draft.next d source ⟨.sep level, start, d.sepOf level, depth⟩)
      (sketch.next ⟨.sep level, start, d.sepOf level, depth⟩) after := by
  obtain ⟨us, finished⟩ := draft
  obtain ⟨ss, done⟩ := sketch
  cases h with
  | @layer _ u header p _ us ss _ top free outer =>
  obtain ⟨hkind, hvalues, hheader, hpart, hlevel⟩ := Stage.of_afterSep? hstage
  rw [← top.part] at hpart
  let stop := start + (d.sepOf level).bytes
  obtain ⟨groups, heq, -⟩ := Unclosed.afterSep_eq source hpart level start stop
  have head : HeadRead d { u with groups, part := .values, valueAt := stop } stage.named
      (p ++ .plain (d.sepOf level)) after := by
    rw [HeadRead, if_neg (by simp)]
    refine top.headed_mark keyRead fun hkeyPart => .inl ?_
    rw [hlevel hkeyPart]
    rfl
  have hlayers : Layers d source done finished ({ tag with stage } :: os)
      ({ u with groups, part := .values, valueAt := stop } :: us)
      ((header, p ++ .plain (d.sepOf level)) :: ss) after :=
    Layers.advance top free outer stage ⟨rfl, rfl, rfl⟩ hkind hvalues.symm
      (top.header.trans hheader.symm) head
  rw [← heq] at hlayers
  exact hlayers

theorem Tallies.headerEnd (h : Tallies d source (tag :: os) draft sketch (d.closer ++ after))
    (inHeader : tag.stage.inHeader = true)
    (keyRead : tag.stage.named = true ∨ leadingKey (d.closer ++ after) = []) :
    Tallies d source ({ tag with stage := .body } :: os)
      (draft.next d source ⟨.close, start, d.closer, depth⟩)
      (sketch.next ⟨.close, start, d.closer, depth⟩) after := by
  obtain ⟨us, finished⟩ := draft
  obtain ⟨ss, done⟩ := sketch
  cases h with
  | @layer _ u header p _ us ss _ top free outer =>
  obtain ⟨groups, hclose⟩ := Draft.close_cons u us finished source start (start + d.closer.bytes)
  obtain ⟨hkind, hpart⟩ := Stage.of_inHeader inHeader
  rw [if_pos ⟨top.kind.trans hkind, top.part ▸ hpart⟩] at hclose
  obtain rfl : header = true := top.header.trans inHeader
  have head : HeadRead d { u with groups, part := .body, bodyAt := start + d.closer.bytes } true
      (p ++ .plain d.closer) after := by
    rw [HeadRead, if_neg (by simp)]
    exact top.headed_mark keyRead fun _ => .inr rfl
  have hlayers : Layers d source done finished ({ tag with stage := .body } :: os)
      ({ u with groups, part := .body, bodyAt := start + d.closer.bytes } :: us)
      ((false, p ++ .plain d.closer) :: ss) after :=
    Layers.advance top free outer .body ⟨rfl, rfl, rfl⟩ hkind.symm rfl rfl head
  simp only [Draft.next, Token.stop, hclose]
  exact hlayers

theorem Tallies.bodyEnd (h : Tallies d source (tag :: os) draft sketch (lexeme ++ after))
    (inBody : tag.stage = .body) :
    Tallies d source ({ tag with stage := .closing false } :: os)
      (draft.next d source ⟨.blockClose, start, lexeme, depth⟩)
      (sketch.next ⟨.blockClose, start, lexeme, depth⟩) after := by
  obtain ⟨us, finished⟩ := draft
  obtain ⟨ss, done⟩ := sketch
  cases h with
  | @layer _ u header p _ us ss _ top free outer =>
  have hpart : tag.stage.part ≠ .key := by rw [inBody]; simp [Stage.part]
  have head : HeadRead d (u.afterBody d source start) false (p ++ .plain lexeme) after := by
    rw [HeadRead, if_neg (by simp [Unclosed.afterBody])]
    exact (top.headed hpart).mono (p.lead_isPrefix_append _)
  exact Layers.advance top free outer (.closing false) ⟨rfl, rfl, rfl⟩ (by rw [inBody]; rfl) rfl
    (by rw [top.header, inBody]; rfl) head

theorem Tallies.tagEnd (h : Tallies d source (tag :: os) draft sketch (d.closer ++ after))
    (pastHeader : tag.stage.inHeader = false)
    (keyRead : tag.stage.named = true ∨ leadingKey (d.closer ++ after) = [])
    (hpos : start + (d.closer ++ after).bytes = source.bytes) :
    Tallies d source os (draft.next d source ⟨.close, start, d.closer, depth⟩)
      (sketch.next ⟨.close, start, d.closer, depth⟩) after := by
  obtain ⟨us, finished⟩ := draft
  obtain ⟨ss, done⟩ := sketch
  cases h with
  | @layer _ u header p _ us ss _ top free outer =>
  obtain ⟨groups, hclose⟩ := Draft.close_cons u us finished source start (start + d.closer.bytes)
  rw [if_neg (by rw [top.kind, top.part]; exact Stage.not_inHeader pastHeader)] at hclose
  obtain rfl : header = false := top.header.trans pastHeader
  have hheaded := top.headed_mark keyRead fun _ => .inr rfl
  have hinner := top.inner.append (.plain _ d.closer)
  rw [Forest.append_nil] at hinner
  have hstart := top.start
  simp only [Text.bytes_append] at hstart hpos
  let ended : Tag := { u with groups }.toTag (start + d.closer.bytes)
  have hone : Depicts d u.start (.one (.tag none) (p ++ .plain d.closer))
      (.tree ended u.inner) := by
    refine Depicts.one (?_ : ended.stop = _) hheaded hinner
    simp only [ended, Unclosed.toTag, Patchwork.text_append, Patchwork.text_plain,
      Text.bytes_append]
    omega
  have hadd := Layers.add (q := .one (.tag none) (p ++ .plain d.closer))
    (by simpa using outer) free hone
    (by simp only [Patchwork.text_one, Patchwork.text_append, Patchwork.text_plain,
          Text.bytes_append]
        omega)
  simp only [Draft.next, Token.stop, hclose]
  exact hadd

end Moves

/-- What the reader, the outline and the sketch have read of the text `source` is the same. -/
structure Reads (d : Delimiters) (source : Text) (c : Cursor) (draft : Draft) (sketch : Sketch) :
    Prop where
  position : c.position + c.rest.bytes = source.bytes
  tallies : Tallies d source c.opened draft sketch c.rest

theorem Reads.step {c : Cursor} {draft : Draft} {sketch : Sketch} {next : Token × Cursor}
    (h : Reads d source c draft sketch) (hm : c.Moves d next) (ha : c.Advances next) :
    Reads d source next.2 (draft.next d source next.1) (sketch.next next.1) := by
  obtain ⟨⟨k, start, lexeme, depth⟩, ⟨position, rest, opened⟩⟩ := next
  obtain ⟨hpos, ht⟩ := h
  obtain ⟨hstart, hrest, -, hposition⟩ := ha
  simp only [Token.stop] at hstart hrest hposition
  subst hstart
  rw [← hrest] at ht hpos
  refine ⟨by simp only [Text.bytes_append] at hpos; simp only [hposition]; omega, ?_⟩
  simp only at ht ⊢
  cases hm with
  | text _ free => exact ht.text free hpos
  | opening kind free opens reads =>
    subst reads
    refine ht.opening kind free hpos fun hk hb => ?_
    cases hk
    rw [hrest] at hb
    rw [Cursor.opens?, if_pos (Cursor.sees_iff.2 hb)] at opens
    cases opens
  | key ho keyed reads =>
    rw [ho] at ht
    rw [← hrest] at reads
    exact ht.key keyed reads
  | sep level ho after keyRead reads =>
    subst reads
    rw [ho] at ht
    rw [← hrest] at keyRead
    exact ht.sep level after keyRead
  | headerEnd ho inHeader keyRead reads =>
    subst reads
    rw [ho] at ht
    rw [← hrest] at keyRead
    exact ht.headerEnd inHeader keyRead
  | bodyEnd ho inBody reads =>
    rw [ho] at ht
    exact ht.bodyEnd inBody
  | tagEnd ho pastHeader pastBody keyRead reads =>
    subst reads
    rw [ho] at ht
    rw [← hrest] at keyRead
    exact ht.tagEnd pastHeader keyRead hpos

/-- When the whole text can be read, nothing is open at its end. -/
theorem Reads.ofCursor {c : Cursor} {draft : Draft} {sketch : Sketch}
    (h : Reads d source c draft sketch) (hf : (Lexing.ofCursor d c).fault? = none) :
    ((Lexing.ofCursor d c).tokens.foldl Sketch.next sketch).done.text = source ∧
      Depicts d 0 ((Lexing.ofCursor d c).tokens.foldl Sketch.next sketch).done
        ((Lexing.ofCursor d c).tokens.foldl (Draft.next d source) draft).finished := by
  fun_induction Lexing.ofCursor d c generalizing draft sketch with
  | case1 c hr =>
    simp only [Option.map_eq_none_iff, List.head?_eq_none_iff] at hf
    have hl := h.tallies
    rw [hf, hr] at hl
    obtain ⟨us, finished⟩ := draft
    obtain ⟨ss, done⟩ := sketch
    cases hl with
    | base all depicts => exact ⟨by simpa [Lexing.tokens] using all, depicts⟩
  | case2 c hr e hs => cases hf
  | case3 c hr next hs more =>
    rename_i ih
    exact ih (h.step (Cursor.step_move hs) (Cursor.step_advances hr hs)) hf

namespace Patchwork

/-- The patchwork of a text with an outline: its text is that text, and its regions are the tags of
the outline. -/
theorem read_of_outline {text : Text} {o : Outline} (h : Outline.ofText d text = .ok o) :
    ∃ p, read d text = .ok p ∧ p.text = text ∧ Depicts d 0 p o.tags := by
  unfold Outline.ofText at h
  unfold read
  unfold tokenize Lexing.result at h ⊢
  split at h
  · cases h
  next hf =>
  cases h
  have hr : Reads d text (.ofText text) .empty .empty :=
    ⟨by simp [Cursor.ofText], .base (by simp [Sketch.empty, Cursor.ofText]) (.plain _ _)⟩
  obtain ⟨htext, hdepicts⟩ := hr.ofCursor hf
  exact ⟨_, rfl, htext, hdepicts⟩

theorem read_error {text : Text} {e : MarkupError} (h : Outline.ofText d text = .error e) :
    read d text = .error e := by
  unfold Outline.ofText at h
  unfold read
  cases ht : tokenize d text with
  | error e' => rw [ht] at h; cases h; rfl
  | ok tokens => rw [ht] at h; cases h

end Patchwork

end TagMarkup
