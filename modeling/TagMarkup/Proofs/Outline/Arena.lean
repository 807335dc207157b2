import Mathlib.Data.List.Induction
import TagMarkup.Outline.Arena
import TagMarkup.Proofs.Outline.Draft

/-! The arena that is filled while a text is read holds the nodes of its outline, as far as their
numbers fit (`Arena.nodes_ofText`). All the time it holds those of the draft: the tags that are
open have their nodes too, in which all is written but what they say and where they end
(`Draft.nodesOf`). -/

namespace TagMarkup

section Modify

variable {α : Type} {f : α → α}

theorem modify_append_of_lt {l : List α} {n : Nat} (h : n < l.length) (rest : List α) :
    (l ++ rest).modify n f = l.modify n f ++ rest := by
  induction l generalizing n with
  | nil => cases h
  | cons a l ih =>
    cases n with
    | zero => rfl
    | succ n =>
      have h : n < l.length := Nat.lt_of_succ_lt_succ h
      simp [ih h]

theorem modify_append_cons (l rest : List α) (a : α) :
    (l ++ a :: rest).modify l.length f = l ++ f a :: rest := by
  induction l with
  | nil => rfl
  | cons b l ih => simp [ih]

end Modify

namespace Forest

theorem numbers_append {α : Type} (f g : Forest α) (first : Nat) :
    (f ++ g).numbers first = f.numbers first ++ g.numbers (first + f.size) := by
  induction f generalizing first with
  | nil => rfl
  | cons a inner rest _ ih =>
    have hfirst : first + 1 + inner.size + rest.size = first + (cons a inner rest).size := by
      rw [size]; omega
    rw [cons_append, numbers, ih, numbers, hfirst, List.cons_append]

/-- The nodes of tags that stand in number `around`, the first of which has the number `first`. -/
def nodes (around first : Nat) (f : Forest Tag) : List Node :=
  List.zipWith (fun tag (parent, children) => Outline.node tag parent children) f.toList
    ((f.parents around first).zip (f.children first))

variable {around first : Nat}

@[simp] theorem nodes_nil : (nil : Forest Tag).nodes around first = [] := rfl

@[simp] theorem length_nodes (f : Forest Tag) : (f.nodes around first).length = f.size := by
  simp [nodes]

theorem nodes_cons (tag : Tag) (inner rest : Forest Tag) :
    (cons tag inner rest).nodes around first =
      Outline.node tag around (inner.numbers (first + 1)) ::
        (inner.nodes first (first + 1) ++ rest.nodes around (first + 1 + inner.size)) := by
  rw [nodes, toList, parents, children, List.zip_cons_cons, List.zipWith_cons_cons,
    List.zip_append (by simp), List.zipWith_append (by simp)]
  rfl

theorem nodes_append (f g : Forest Tag) :
    (f ++ g).nodes around first = f.nodes around first ++ g.nodes around (first + f.size) := by
  induction f generalizing around first with
  | nil => rfl
  | cons tag inner rest _ ih =>
    have hfirst : first + 1 + inner.size + rest.size = first + (cons tag inner rest).size := by
      rw [size]; omega
    rw [cons_append, nodes_cons, ih, nodes_cons, hfirst, List.cons_append, List.append_assoc]

end Forest

namespace Unclosed

/-- The tag without those that ended inside it. -/
def bare (u : Unclosed) : Unclosed := { u with inner := .nil }

@[simp] theorem kind_bare (u : Unclosed) : u.bare.kind = u.kind := rfl

@[simp] theorem part_bare (u : Unclosed) : u.bare.part = u.part := rfl

/-- Reading on in a tag moves it nowhere, and does nothing to the tags inside it. -/
structure StaysPut (change : Unclosed → Unclosed) : Prop where
  kind : ∀ u, (change u).kind = u.kind
  start : ∀ u, (change u).start = u.start
  inner : ∀ u, (change u).inner = u.inner
  bare : ∀ u, (change u).bare = change u.bare

theorem staysPut_key (key : Text) :
    StaysPut fun u => if u.part = .key then { u with key } else u := by
  constructor <;> intro u <;> by_cases h : u.part = .key <;> simp [h, bare]

theorem staysPut_afterSep (text : Text) (level : Level) (start stop : Nat) :
    StaysPut (·.afterSep text level start stop) := by
  constructor <;> intro u <;> by_cases h : u.part = .key <;> cases level <;>
    simp [afterSep, h, bare, newGroup, endValue]

theorem staysPut_endValue (text : Text) (stop : Nat) :
    StaysPut fun u => if u.part = .values then u.endValue text stop else u := by
  constructor <;> intro u <;> by_cases h : u.part = .values <;> simp [h, bare, endValue]

theorem staysPut_body (stop : Nat) : StaysPut ({ · with part := .body, bodyAt := stop }) :=
  ⟨fun _ => rfl, fun _ => rfl, fun _ => rfl, fun _ => rfl⟩

theorem staysPut_afterBody (d : Delimiters) (text : Text) (start : Nat) :
    StaysPut (·.afterBody d text start) :=
  ⟨fun _ => rfl, fun _ => rfl, fun _ => rfl, fun _ => rfl⟩

end Unclosed

namespace Draft

variable (length : Nat) (finished : Forest Tag)

/-- The number of nodes when these tags are open, innermost first. -/
def count : (opened : List Unclosed) → Nat
  | [] => finished.size + 1
  | u :: outer => count outer + 1 + u.inner.size

/-- The number of the innermost open tag, or of the whole text. -/
def innermost : (opened : List Unclosed) → Nat
  | [] => 0
  | _ :: outer => count finished outer

/-- The open tags with their numbers. -/
def numbered : (opened : List Unclosed) → List (Nat × Unclosed)
  | [] => []
  | u :: outer => (count finished outer, u.bare) :: numbered outer

/-- The nodes when these tags are open. The innermost open node, which is that of the whole text if
no tag is open, has `more` nodes directly inside it behind those that have ended. -/
def nodesOf : (opened : List Unclosed) → (more : List Nat) → List Node
  | [], more =>
    { (⟨length, .nil⟩ : Outline).root with children := finished.numbers 1 ++ more } ::
      finished.nodes 0 1
  | u :: outer, more =>
    let number := count finished outer
    nodesOf outer [number] ++
      .opened u.kind u.start (innermost finished outer) (u.inner.numbers (number + 1) ++ more) ::
        u.inner.nodes number (number + 1)

variable {length finished}

theorem innermost_lt_count (opened : List Unclosed) :
    innermost finished opened < count finished opened := by
  cases opened with
  | nil => exact Nat.succ_pos _
  | cons u outer => rw [innermost, count]; omega

@[simp] theorem length_nodesOf (opened : List Unclosed) (more : List Nat) :
    (nodesOf length finished opened more).length = count finished opened := by
  induction opened generalizing more with
  | nil => simp [nodesOf, count]
  | cons u outer ih =>
    rw [nodesOf, List.length_append, ih, List.length_cons, Forest.length_nodes, count]
    omega

/-- There is a node for each opener, and one for the whole text. -/
theorem count_opened (draft : Draft) :
    count draft.finished draft.opened = draft.openers.length + 1 := by
  obtain ⟨opened, finished⟩ := draft
  induction opened with
  | nil => simp [count, openers]
  | cons u outer ih =>
    have ih : count finished outer = (openers ⟨outer, finished⟩).length + 1 := ih
    rw [count, ih]
    simp [openers, Unclosed.openers]
    omega

/-- A change of the node of the innermost open tag. -/
theorem modify_nodesOf (u : Unclosed) (outer : List Unclosed) (more : List Nat) (f : Node → Node) :
    let number := count finished outer
    (nodesOf length finished (u :: outer) more).modify number f =
      nodesOf length finished outer [number] ++
        f (.opened u.kind u.start (innermost finished outer)
          (u.inner.numbers (number + 1) ++ more)) :: u.inner.nodes number (number + 1) := by
  intro number
  have hlength : (nodesOf length finished outer [number]).length = number := length_nodesOf outer _
  rw [nodesOf, ← modify_append_cons, hlength]

/-- A further node directly inside the innermost open one. -/
theorem modify_innermost (opened : List Unclosed) (more : List Nat) (number : Nat) :
    (nodesOf length finished opened more).modify (innermost finished opened)
        (Node.addChild number) =
      nodesOf length finished opened (more ++ [number]) := by
  cases opened with
  | nil => simp [nodesOf, innermost, Node.addChild]
  | cons u outer =>
    rw [innermost, modify_nodesOf, nodesOf]
    simp [Node.addChild, Node.opened, Outline.node]

/-- The nodes of tags that have ended stand behind the others. -/
theorem nodesOf_add (draft : Draft) (f : Forest Tag) :
    let count := count draft.finished draft.opened
    nodesOf length (draft.add f).finished (draft.add f).opened [] =
      nodesOf length draft.finished draft.opened (f.numbers count) ++
        f.nodes (innermost draft.finished draft.opened) count := by
  obtain ⟨opened, finished⟩ := draft
  cases opened with
  | nil =>
    simp [add, nodesOf, count, innermost, Forest.numbers_append, Forest.nodes_append,
      Nat.add_comm 1]
  | cons u outer =>
    simp [add, nodesOf, count, innermost, Forest.numbers_append, Forest.nodes_append]

theorem numbered_add (draft : Draft) (f : Forest Tag) :
    numbered (draft.add f).finished (draft.add f).opened =
      numbered draft.finished draft.opened := by
  obtain ⟨opened, finished⟩ := draft
  cases opened <;> rfl

end Draft

namespace Filling

open Draft (count innermost numbered nodesOf)

/-- The nodes of the draft have been filled in, and the same tags are open. -/
structure Fills (length : Nat) (draft : Draft) (s : Filling) : Prop where
  nodes : s.arena.nodes = nodesOf length draft.finished draft.opened []
  opened : s.opened = numbered draft.finished draft.opened

namespace Fills

variable {d : Delimiters} {text : Text} {length : Nat} {draft : Draft} {s : Filling}

theorem start (length : Nat) : Fills length .empty ⟨.ofLength length, []⟩ := ⟨rfl, rfl⟩

theorem around (h : Fills length draft s) :
    s.around = innermost draft.finished draft.opened := by
  rw [Filling.around, h.opened]
  cases draft.opened <;> rfl

theorem push (h : Fills length draft s) (kind : TagKind) (start : Nat)
    (hroom : draft.openers.length < Arena.lastNumber) :
    Fills length (draft.push kind start) (s.push kind start) := by
  have hcount := Draft.count_opened draft
  have hnumber : s.arena.nextNumber = count draft.finished draft.opened := by
    rw [Arena.nextNumber, h.nodes, Draft.length_nodesOf]
    omega
  constructor
  · have hlt : innermost draft.finished draft.opened <
        (nodesOf length draft.finished draft.opened []).length := by
      rw [Draft.length_nodesOf]
      exact Draft.innermost_lt_count _
    show (s.arena.nodes ++ [_]).modify s.around (Node.addChild s.arena.nextNumber) = _
    rw [h.around, hnumber, h.nodes, modify_append_of_lt hlt, Draft.modify_innermost]
    rfl
  · show (s.arena.nextNumber, _) :: s.opened = _
    rw [hnumber, h.opened]
    rfl

theorem modify {change : Unclosed → Unclosed} (h : Fills length draft s)
    (hchange : Unclosed.StaysPut change) :
    Fills length (draft.modify change) (s.modify change) := by
  obtain ⟨arena, frames⟩ := s
  obtain ⟨opened, finished⟩ := draft
  obtain ⟨hnodes, rfl⟩ := h
  cases opened with
  | nil => exact ⟨hnodes, rfl⟩
  | cons u outer =>
    constructor
    · refine hnodes.trans ?_
      simp only [Draft.modify, nodesOf, hchange.kind, hchange.start, hchange.inner]
    · simp only [Filling.modify, Draft.modify, numbered, hchange.bare]

/-- The node of a tag that ends is completed. -/
theorem finish {u : Unclosed} {outer : List Unclosed} {finished : Forest Tag} {arena : Arena}
    (h : arena.nodes = nodesOf length finished (u :: outer) []) (stop : Nat) :
    Fills length (Draft.add (.tree (u.toTag stop) u.inner) ⟨outer, finished⟩)
      ⟨arena.finish (count finished outer) stop ⟨u.key, u.groups⟩, numbered finished outer⟩ := by
  refine ⟨?_, (Draft.numbered_add ⟨outer, finished⟩ _).symm⟩
  rw [Draft.nodesOf_add, Forest.tree, Forest.nodes_cons]
  simp only [Arena.finish, h, Draft.modify_nodesOf, List.append_nil]
  simp [Forest.numbers, Node.finish, Node.opened, Outline.node, Unclosed.toTag]

theorem close (h : Fills length draft s) (start stop : Nat) :
    Fills length (draft.close text start stop) (s.close text start stop) := by
  have hended := h.modify (Unclosed.staysPut_endValue text start)
  obtain ⟨arena, frames⟩ := s
  obtain ⟨opened, finished⟩ := draft
  obtain ⟨-, rfl⟩ := h
  cases opened with
  | nil => exact hended
  | cons u outer =>
    have hbare := (Unclosed.staysPut_endValue text start).bare u
    simp only [Draft.modify, Filling.modify, numbered, ← hbare] at hended
    simp only [Draft.close, Filling.close, numbered, ← hbare]
    -- from here on the value in front of the closer belongs to the tag
    generalize (if u.part = .values then u.endValue text start else u) = v at *
    rw [Unclosed.kind_bare, Unclosed.part_bare]
    by_cases hheader : v.kind = .block ∧ (v.part = .key ∨ v.part = .values)
    · rw [if_pos hheader, if_pos hheader]
      exact hended.modify (Unclosed.staysPut_body stop)
    · rw [if_neg hheader, if_neg hheader]
      exact finish hended.nodes stop

/-- A token that opens a tag finds a number for it, as long as they last. -/
theorem next (h : Fills length draft s) (token : Token)
    (hroom : token.kind.isOpen = true → draft.openers.length < Arena.lastNumber) :
    Fills length (draft.next d text token) (s.next d text token) := by
  obtain ⟨kind, start, lexeme, depth⟩ := token
  cases kind with
  | text => exact h
  | inlineOpen => exact h.push .inline start (hroom rfl)
  | blockOpen => exact h.push .block start (hroom rfl)
  | key => exact h.modify (Unclosed.staysPut_key lexeme)
  | sep level => exact h.modify (Unclosed.staysPut_afterSep text level _ _)
  | blockClose => exact h.modify (Unclosed.staysPut_afterBody d text start)
  | close => exact h.close start _

end Fills

theorem ofTokens_fills (d : Delimiters) (text : Text) {tokens : List Token}
    (hroom : (tokens.filterMap Token.opener?).length ≤ Arena.lastNumber) :
    Fills text.bytes (Draft.ofTokens d text tokens) (ofTokens d text tokens) := by
  induction tokens using List.reverseRecOn with
  | nil => exact Fills.start text.bytes
  | append_singleton tokens token ih =>
    rw [List.filterMap_append, List.length_append] at hroom
    have hfills := ih (Nat.le_of_add_right_le hroom)
    rw [Draft.ofTokens_concat, ofTokens, List.foldl_concat]
    refine hfills.next token fun hopen => ?_
    have hopener : ([token].filterMap Token.opener?).length = 1 := by
      obtain ⟨kind, start, lexeme, depth⟩ := token
      cases kind <;> first | rfl | cases hopen
    rw [Draft.openers_ofTokens]
    omega

end Filling

/-- The arena that is filled while a text is read holds the nodes of its outline, if their numbers
fit. -/
theorem Arena.nodes_ofText (d : Delimiters) (text : Text)
    (hroom : ∀ o, Outline.ofText d text = .ok o → o.size ≤ lastNumber) :
    (ofText d text).map nodes = (Outline.ofText d text).map Outline.nodes := by
  rw [ofText, Outline.ofText]
  cases htokens : tokenize d text with
  | error e => rfl
  | ok tokens =>
    have hopened := Draft.opened_ofTokens htokens
    have hopeners := Draft.openers_ofTokens d text tokens
    rw [Draft.openers, hopened] at hopeners
    have hroom := hroom _ (congrArg (Except.map _) htokens)
    rw [Outline.size, ← Forest.length_toList] at hroom
    have hfew : (tokens.filterMap Token.opener?).length ≤ lastNumber := by
      rw [← hopeners]
      simpa using hroom
    have hfills := Filling.ofTokens_fills d text hfew
    have hnodes := hfills.nodes
    rw [hopened] at hnodes
    refine congrArg Except.ok (hnodes.trans ?_)
    simp [Draft.nodesOf, Outline.nodes, Outline.root, Forest.nodes]

end TagMarkup
