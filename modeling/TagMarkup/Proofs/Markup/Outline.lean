import TagMarkup.Proofs.Markup.Reading

/-! The outline of valid markup: its tags, each with the key and the groups of values that the
structure of the markup gives it. -/

namespace TagMarkup

namespace Unclosed

/-- The values one after another at the end of the last group. -/
def addValues (values : List Text) (groups : List (List Text)) : List (List Text) :=
  values.foldl (fun groups value => addToLast value groups) groups

@[simp] theorem addToLast_append (value : Text) (groups : List (List Text)) (group : List Text) :
    addToLast value (groups ++ [group]) = groups ++ [group ++ [value]] := by
  induction groups with
  | nil => rfl
  | cons first groups ih =>
    cases groups with
    | nil => rfl
    | cons second groups =>
      rw [List.cons_append, List.cons_append, addToLast, ← List.cons_append, ih]
      · rfl
      · simp

@[simp] theorem addValues_append (values : List Text) (groups : List (List Text))
    (group : List Text) :
    addValues values (groups ++ [group]) = groups ++ [group ++ values] := by
  induction values generalizing group with
  | nil => simp [addValues]
  | cons value values ih =>
    have hrest := ih (group ++ [value])
    unfold addValues at hrest ⊢
    rw [List.foldl_cons, addToLast_append, hrest, List.append_assoc]
    rfl

@[simp] theorem addValues_cons (value : Text) (values : List Text) (groups : List (List Text)) :
    addValues (value :: values) groups = addValues values (addToLast value groups) := rfl

@[simp] theorem addValues_nil (groups : List (List Text)) : addValues [] groups = groups := rfl

/-- Without a group there is nowhere to add a value. -/
@[simp] theorem addValues_to_nil (values : List Text) : addValues values [] = [] := by
  induction values with
  | nil => rfl
  | cons value values ih => exact ih

end Unclosed

namespace Groups

variable (t : Text) (ps : List Piece)

@[simp] theorem ofPieces_kept : ofPieces (.kept t :: ps) =
    ⟨t ++ (ofPieces ps).value, (ofPieces ps).values, (ofPieces ps).groups⟩ := rfl

@[simp] theorem ofPieces_cut_value : ofPieces (.cut .value :: ps) =
    ⟨[], (ofPieces ps).value :: (ofPieces ps).values, (ofPieces ps).groups⟩ := rfl

@[simp] theorem ofPieces_cut_group :
    ofPieces (.cut .group :: ps) = ⟨[], [], (ofPieces ps).toList⟩ := rfl

end Groups

namespace Markup

variable {d : Delimiters} {m : Markup}

/-- A tag after the markup `m` among its values. The present value began at `front`, and `value` had
been read of it. The value that is present afterwards is counted as ended. -/
def AddsValues (d : Delimiters) (m : Markup) : Prop :=
  ∀ (front value tail : Text) (depth : Nat) (u : Unclosed) (us : List Unclosed)
    (finished : Forest Tag), u.part = .values → u.valueAt = front.bytes →
    let before := front ++ value
    let text := before ++ (m.source d ++ tail)
    let more := Groups.ofPieces (m.pieces d)
    ∃ v : Unclosed, (m.tokens d depth before.bytes).foldl (Draft.next d text) ⟨u :: us, finished⟩ =
        ⟨v :: us, finished⟩ ∧ v.part = .values ∧
      v.endValue text (before ++ m.source d).bytes = { u with
        groups := Unclosed.addValues ((value ++ more.value) :: more.values) u.groups ++ more.groups
        valueAt := v.valueAt
        inner := u.inner ++ m.tags d before.bytes }

/-- A draft after the markup `m` in free text. -/
def AddsTags (d : Delimiters) (m : Markup) : Prop :=
  ∀ (before tail : Text) (depth : Nat) (draft : Draft),
    (m.tokens d depth before.bytes).foldl (Draft.next d (before ++ (m.source d ++ tail))) draft =
      draft.add (m.tags d before.bytes)

theorem addsValues_done : AddsValues d done := by
  intro front value tail depth u us finished hpart hat
  refine ⟨u, rfl, hpart, ?_⟩
  have hslice := Text.slice_append front value tail
  simp only [source, pieces, tags, List.append_nil, List.nil_append, Text.bytes_append,
    Unclosed.endValue, hat, List.append_assoc, hslice, Forest.append_nil, Groups.ofPieces,
    List.foldr_nil, Unclosed.addValues, List.foldl_cons, List.foldl_nil]

theorem AddsValues.text {t : Text} (h : AddsValues d m) : AddsValues d (.text t m) := by
  intro front value tail depth u us finished hpart hat
  obtain ⟨v, hfold, hv, hend⟩ := h front (value ++ t) tail depth u us finished hpart hat
  refine ⟨v, ?_, hv, ?_⟩
  · simpa [tokens, source, Draft.next, Nat.add_assoc] using hfold
  · simpa [source, pieces, tags, Nat.add_assoc] using hend

theorem AddsValues.sep (level : Level) (h : AddsValues d m) : AddsValues d (.sep level m) := by
  intro front value tail depth u us finished hpart hat before text more
  have hslice : text.slice u.valueAt before.bytes = value := by
    have := Text.slice_append front value (source d (.sep level m) ++ tail)
    simpa [text, before, hat] using this
  let groups := Unclosed.addToLast value u.groups
  let u' : Unclosed := { u with
    groups := groups ++ if level = .group then [[]] else []
    valueAt := (before ++ d.sepOf level).bytes }
  have hnext : u.afterSep text level before.bytes (before ++ d.sepOf level).bytes = u' := by
    cases level <;>
      simp [u', groups, Unclosed.afterSep, hpart, Unclosed.endValue, Unclosed.newGroup, hslice]
  obtain ⟨v, hfold, hv, hend⟩ := h (before ++ d.sepOf level) [] tail depth u' us finished hpart rfl
  refine ⟨v, ?_, hv, ?_⟩
  · rw [← hnext] at hfold
    simpa [tokens, source, Draft.next, Draft.modify, Token.stop, text, before, Nat.add_assoc]
      using hfold
  · cases level with
    | value =>
      simpa [source, tags, text, before, more, pieces, u', groups, Nat.add_assoc] using hend
    | group =>
      simpa [source, tags, text, before, more, pieces, u', groups, Groups.toList, Nat.add_assoc]
        using hend

/-- Among values a tag is part of the present value. -/
theorem AddsValues.tag {one : Markup} (hone : AddsTags d one)
    (hpieces : one.pieces d = [.kept (one.source d)]) (h : AddsValues d m) :
    AddsValues d (one ++ m) := by
  intro front value tail depth u us finished hpart hat before text more
  have htag := hone before (m.source d ++ tail) depth ⟨u :: us, finished⟩
  let u' : Unclosed := { u with inner := u.inner ++ one.tags d before.bytes }
  obtain ⟨v, hfold, hv, hend⟩ :=
    h front (value ++ one.source d) tail depth u' us finished hpart hat
  have hsource : source d (one ++ m) ++ tail = one.source d ++ (m.source d ++ tail) := by simp
  refine ⟨v, ?_, hv, ?_⟩
  · rw [tokens_append, List.foldl_append]
    simp only [text, hsource]
    rw [htag]
    simpa [before, Draft.add, u', Nat.add_assoc] using hfold
  · simpa [source, text, before, more, pieces, tags_append, hpieces, u', Forest.append_assoc,
      Nat.add_assoc] using hend

theorem AddsTags.append {m' : Markup} (h : AddsTags d m) (h' : AddsTags d m') :
    AddsTags d (m ++ m') := by
  intro before tail depth draft
  have hfirst := h before (m'.source d ++ tail) depth draft
  have hsecond := h' (before ++ m.source d) tail depth (draft.add (m.tags d before.bytes))
  simp only [List.append_assoc, Text.bytes_append] at hsecond
  rw [tokens_append, tags_append, source_append, List.foldl_append, List.append_assoc, hfirst,
    hsecond, Draft.add_add]

section Heads

variable {kind : TagKind} {key : Text} {header : Markup}

/-- Where a header begins, and where it ends, a tag without groups may as well be among its
values. -/
theorem next_among_values (text : Text) (u : Unclosed) (us : List Unclosed)
    (finished : Forest Tag) (hpart : u.part = .key) (hgroups : u.groups = []) {token : Token}
    (hkind : token.kind = .close ∨ token.kind = .sep .group) :
    Draft.next d text ⟨u :: us, finished⟩ token =
      Draft.next d text ⟨{ u with part := .values } :: us, finished⟩ token := by
  rcases hkind with hkind | hkind
  · simp [Draft.next, hkind, Draft.close, hpart, Unclosed.endValue, hgroups, Unclosed.addToLast,
      Unclosed.toTag, Draft.add]
  · simp [Draft.next, hkind, Draft.modify, Unclosed.afterSep, hpart, Unclosed.endValue, hgroups,
      Unclosed.addToLast, Unclosed.newGroup]

theorem header_among_values (hshape : header.IsHeader) (text : Text) (u : Unclosed)
    (us : List Unclosed) (finished : Forest Tag) (hpart : u.part = .key) (hgroups : u.groups = [])
    (depth position : Nat) (close : Token) (hclose : close.kind = .close) :
    (header.tokens d depth position ++ [close]).foldl (Draft.next d text) ⟨u :: us, finished⟩ =
      (header.tokens d depth position ++ [close]).foldl (Draft.next d text)
        ⟨{ u with part := .values } :: us, finished⟩ := by
  match header, hshape with
  | .done, _ =>
    exact next_among_values text u us finished hpart hgroups (.inl hclose)
  | .sep .group items, _ =>
    simp only [tokens, List.cons_append, List.foldl_cons]
    rw [next_among_values text u us finished hpart hgroups (.inr rfl)]

theorem keyTokens_foldl (text : Text) (u : Unclosed) (us : List Unclosed)
    (finished : Forest Tag) (depth position : Nat) (key : Text) :
    (keyTokens depth position key).foldl (Draft.next d text) ⟨u :: us, finished⟩ =
      ⟨(if u.part = .key ∧ key ≠ [] then { u with key } else u) :: us, finished⟩ := by
  unfold keyTokens
  by_cases hk : key = []
  · simp [hk]
  · simp [hk, Draft.next, Draft.modify]

/-- The draft behind the head of a tag: an inline tag has ended, and the body of a block tag
begins. -/
def afterHead (kind : TagKind) (call : Call) (start stop valueAt : Nat) (inner : Forest Tag)
    (draft : Draft) : Draft :=
  match kind with
  | .inline => draft.add (.tree ⟨.inline, call, start, stop⟩ inner)
  | .block => { draft with opened :=
      ⟨.block, start, .body, call.key, call.groups, valueAt, stop, inner⟩ :: draft.opened }

theorem Heads.foldl (h : Heads d kind key header) (hi : AddsValues d header)
    (before tail : Text) (depth : Nat) (draft : Draft) :
    ∃ valueAt, (headTokens d kind depth before.bytes key (header.source d)
        fun at' => header.tokens d depth at').foldl
      (Draft.next d (before ++ (d.head kind key (header.source d) ++ tail))) draft =
        afterHead kind ⟨key, header.groups d⟩ before.bytes
          (before.bytes + (d.head kind key (header.source d)).bytes) valueAt
          (header.tags d (before.bytes + (d.openerOf kind).bytes + key.bytes)) draft := by
  let text := before ++ (d.head kind key (header.source d) ++ tail)
  let headerAt := before.bytes + (d.openerOf kind).bytes + key.bytes
  let stop := before.bytes + (d.head kind key (header.source d)).bytes
  let opened : Unclosed := .opened kind before.bytes
  let named : Unclosed := { opened with key }
  let valued : Unclosed := { named with part := .values }
  let close : Token := ⟨.close, headerAt + (header.source d).bytes, d.closer, depth⟩
  -- the opener, the key, the header, and the closer
  have hopen : draft.next d text ⟨Cursor.openToken kind, before.bytes, d.openerOf kind, depth⟩ =
      ⟨opened :: draft.opened, draft.finished⟩ := by
    cases kind <;> rfl
  have hkey : (if opened.part = .key ∧ key ≠ [] then { opened with key } else opened) = named := by
    by_cases hk : key = []
    · simp [hk, opened, named, Unclosed.opened]
    · simp [hk, opened, named, Unclosed.opened]
  have hamong := header_among_values (d := d) h.shape text named draft.opened draft.finished rfl
    rfl depth headerAt close rfl
  obtain ⟨v, hfold, hv, hend⟩ := hi [] (before ++ d.openerOf kind ++ key) (d.closer ++ tail) depth
    valued draft.opened draft.finished rfl rfl
  have hbytes : (before ++ d.openerOf kind ++ key).bytes = headerAt := by
    simp [headerAt, Nat.add_assoc]
  have htext :
      before ++ d.openerOf kind ++ key ++ (header.source d ++ (d.closer ++ tail)) = text := by
    simp [text, Delimiters.head]
  have hstop : headerAt + (header.source d).bytes + d.closer.bytes = stop := by
    simp [headerAt, stop, Delimiters.head, Nat.add_assoc]
  rw [List.nil_append, hbytes, htext] at hfold
  rw [List.nil_append, htext, Text.bytes_append, hbytes] at hend
  have hclose : Draft.close text (headerAt + (header.source d).bytes) stop
      ⟨v :: draft.opened, draft.finished⟩ =
        afterHead kind ⟨key, header.groups d⟩ before.bytes stop v.valueAt (header.tags d headerAt)
          draft := by
    simp only [Draft.close, if_pos hv, hend]
    cases kind <;> simp [afterHead, valued, named, opened, Unclosed.opened, Unclosed.toTag, groups,
      Draft.add]
  refine ⟨v.valueAt, ?_⟩
  rw [headTokens, List.foldl_cons, List.foldl_append, hopen, keyTokens_foldl, hkey, hamong,
    List.foldl_append, hfold, List.foldl_cons, List.foldl_nil]
  show Draft.close text close.start close.stop ⟨v :: draft.opened, draft.finished⟩ = _
  rw [show close.stop = stop from hstop]
  exact hclose

end Heads

theorem endingTokens_foldl (before body tail endKey : Text) (depth : Nat) (u : Unclosed)
    (us : List Unclosed) (finished : Forest Tag) (hkind : u.kind = .block)
    (hbody : u.bodyAt = before.bytes) :
    (endingTokens d depth (before ++ body).bytes endKey).foldl
      (Draft.next d (before ++ (body ++ (d.ending endKey ++ tail)))) ⟨u :: us, finished⟩ =
        Draft.add (.tree ⟨.block, ⟨u.key, u.groups ++ templateGroups d body⟩, u.start,
          (before ++ body).bytes + (d.ending endKey).bytes⟩ u.inner) ⟨us, finished⟩ := by
  let text := before ++ (body ++ (d.ending endKey ++ tail))
  have hslice : text.slice u.bodyAt (before ++ body).bytes = body := by
    have := Text.slice_append before body (d.ending endKey ++ tail)
    simpa [text, hbody] using this
  let ended : Unclosed := { u with
    groups := u.groups ++ templateGroups d body
    part := .ending }
  have hblock : Draft.next d text ⟨u :: us, finished⟩
      ⟨.blockClose, (before ++ body).bytes, d.blockCloser, depth⟩ = ⟨ended :: us, finished⟩ := by
    show Draft.modify (Unclosed.afterBody d text · (before ++ body).bytes) ⟨u :: us, finished⟩ = _
    simp only [Draft.modify, Unclosed.afterBody, hslice, ended]
  have hstop : (before ++ body).bytes + (d.ending endKey).bytes =
      (before ++ body).bytes + d.blockCloser.bytes + endKey.bytes + d.closer.bytes := by
    simp [Delimiters.ending, Nat.add_assoc]
  rw [endingTokens, List.foldl_cons, hblock, List.foldl_append, keyTokens_foldl,
    if_neg (by simp [ended]), List.foldl_cons, List.foldl_nil]
  simp only [Draft.next, Token.stop, Draft.close, hstop]
  simp [Unclosed.toTag, ended, hkind]

theorem addsTags_inline {key : Text} {header : Markup} (h : Heads d .inline key header)
    (hi : AddsValues d header) : AddsTags d (.inline key header .done) := by
  intro before tail depth draft
  obtain ⟨valueAt, hfold⟩ := h.foldl hi before tail (depth + 1) draft
  simpa [tokens, source, tags, afterHead, Forest.tree] using hfold

theorem addsTags_block {key endKey : Text} {header body : Markup} (h : Heads d .block key header)
    (hi : AddsValues d header) (hb : AddsTags d body) :
    AddsTags d (.block key header body endKey .done) := by
  intro before tail depth draft
  let front := before ++ d.head .block key (header.source d)
  obtain ⟨valueAt, hhead⟩ := h.foldl hi before (body.source d ++ (d.ending endKey ++ tail))
    (depth + 1) draft
  have hbody := hb front (d.ending endKey ++ tail) (depth + 1)
    (afterHead .block ⟨key, header.groups d⟩ before.bytes front.bytes valueAt
      (header.tags d (before.bytes + (d.openerOf .block).bytes + key.bytes)) draft)
  have hending := endingTokens_foldl (d := d) front (body.source d) tail endKey (depth + 1)
    ⟨.block, before.bytes, .body, key, header.groups d, valueAt, front.bytes,
      header.tags d (before.bytes + (d.openerOf .block).bytes + key.bytes) ++
        body.tags d front.bytes⟩ draft.opened draft.finished rfl rfl
  simp only [front, Text.bytes_append, List.append_assoc] at hbody hending
  simp only [tokens, source, tags, List.foldl_append, List.append_assoc, List.append_nil]
  rw [hhead, hbody]
  simp only [Nat.add_assoc] at hending ⊢
  exact hending

/-- Both readings of valid markup, each in its own context. -/
theorem Valid.adds {context : Context} {after : Text} (h : Valid d context after m) :
    AddsValues d m ∧ (context = .free → AddsTags d m) := by
  induction h with
  | done context after =>
    refine ⟨addsValues_done, fun _ before tail depth draft => ?_⟩
    simp [tokens, tags]
  | @text context after t rest nonempty ends _ ih =>
    refine ⟨ih.1.text, fun hc before tail depth draft => ?_⟩
    have hrest := ih.2 hc (before ++ t) tail depth draft
    simpa [tokens, source, tags, Draft.next] using hrest
  | sep level _ ih =>
    refine ⟨ih.1.sep level, fun hc => ?_⟩
    cases hc
  | @inline context after key header rest heads inside _ ihi ihr =>
    have hone : AddsTags d (.inline key header .done) := addsTags_inline heads ihi.1
    have hvalues := AddsValues.tag hone (by simp [pieces, source]) ihr.1
    exact ⟨by simpa using hvalues, fun hc => by simpa using hone.append (ihr.2 hc)⟩
  | @block context after key endKey header body rest heads inside within ending _ ihi ihb ihr =>
    have hone : AddsTags d (.block key header body endKey .done) :=
      addsTags_block heads ihi.1 (ihb.2 rfl)
    have hvalues := AddsValues.tag hone (by simp [pieces, source]) ihr.1
    exact ⟨by simpa using hvalues, fun hc => by simpa using hone.append (ihr.2 hc)⟩

/-- The outline of valid markup is the outline of its text. -/
theorem Valid.outline (h : Valid d .free [] m) :
    Outline.ofText d (m.source d) = .ok ⟨(m.source d).bytes, m.tags d 0⟩ := by
  have hdraft : Draft.ofTokens d (m.source d) (m.tokens d 0 0) = Draft.empty.add (m.tags d 0) := by
    simpa [Draft.ofTokens] using h.adds.2 rfl [] [] 0 .empty
  rw [Outline.ofText, h.tokenize]
  simp only [Except.map, hdraft, Draft.add, Draft.empty, Forest.nil_append]

end Markup

end TagMarkup
