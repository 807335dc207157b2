import Mathlib.Data.List.Induction
import Mathlib.Data.Set.Defs
import TagMarkup.Settings.Library

/-! What is relied on of a library for configuration files: files are merged in the order in which
they are added, tables key by key, and a later value takes the place of an earlier one
(`Library.MergesByKey`). So under each key of the merged table there is what the files make of it
one after another (`exists_build?`), and for what does not see into tables that is the value of the
last file that has one (`map_stack`). -/

namespace TagMarkup.Settings.Library

variable (lib : Library)

/-- What two values under the same key make together: a table goes into a table, and otherwise the
value of more weight takes the place of the other one. -/
def over? : (top? base? : Option lib.Value) → Option lib.Value
  | some top, some base =>
    if lib.isTable top ∧ lib.isTable base then some (lib.merge top base) else some top
  | some top, none => some top
  | none, base? => base?

/-- The value is a table that has under each key what two tables make of it together. -/
structure IsMerged (v top base : lib.Value) : Prop where
  isTable : lib.isTable v
  get?_eq : ∀ key, lib.get? v key = lib.over? (lib.get? top key) (lib.get? base key)

/-- The library merges these files in the order in which they are added, tables key by key, and a
later value takes the place of an earlier one. -/
structure MergesByKey (files : Set Text) : Prop where
  none : ∃ v, lib.build? [] = some v ∧ lib.isTable v ∧ ∀ key, lib.get? v key = none
  concat : ∀ earlier file, lib.build? (earlier ++ [file]) =
    (lib.build? earlier).bind fun base => (lib.read? file).map fun top => lib.add top base
  add : ∀ file ∈ files, ∀ top, lib.read? file = some top → ∀ base, lib.isTable base →
    lib.IsMerged (lib.add top base) top base
  merge : ∀ top base, lib.isTable top → lib.isTable base →
    lib.IsMerged (lib.merge top base) top base

/-- A table is a record of what it has under its keys, and neither a truth value nor a text. -/
structure KeepsTables : Prop where
  toBool? : ∀ v, lib.isTable v → lib.toBool? v = none
  toText? : ∀ v, lib.isTable v → lib.toText? v = none
  toFields? : ∀ v, lib.isTable v → ∀ fields, lib.toFields? v fields = some (lib.get? v)

/-- What the values that files give one after another make together. -/
def stack (values : List (Option lib.Value)) : Option lib.Value :=
  values.foldl (fun base? top? => lib.over? top? base?) none

/-- The value of most weight is a table, and so is the next one. -/
def Blends : (values : List lib.Value) → Prop
  | top :: base :: _ => lib.isTable top ∧ lib.isTable base
  | _ => False

instance (values : List lib.Value) : Decidable (lib.Blends values) :=
  match values with
  | [] | [_] => inferInstanceAs (Decidable False)
  | top :: base :: _ => inferInstanceAs (Decidable (lib.isTable top ∧ lib.isTable base))

variable {lib} {files : Set Text} {top? base? : Option lib.Value} {values : List (Option lib.Value)}

/-- The values that there are, from the one of most weight. -/
def present (values : List (Option lib.Value)) : List lib.Value := (values.filterMap id).reverse

theorem present_concat_none (values : List (Option lib.Value)) :
    present (values ++ [none]) = present values := by simp [present]

theorem present_concat_some (values : List (Option lib.Value)) (top : lib.Value) :
    present (values ++ [some top]) = top :: present values := by simp [present]

theorem mem_present {v : lib.Value} : v ∈ present values ↔ some v ∈ values := by simp [present]

theorem stack_concat (values : List (Option lib.Value)) (top? : Option lib.Value) :
    lib.stack (values ++ [top?]) = lib.over? top? (lib.stack values) := by
  simp [stack]

section Files

variable (hlib : lib.MergesByKey files)

include hlib

theorem build?_eq_none_iff {fs : List Text} :
    lib.build? fs = none ↔ ∃ file ∈ fs, lib.read? file = none := by
  induction fs using List.reverseRecOn with
  | nil =>
    obtain ⟨v, hv, -⟩ := hlib.none
    simp [hv]
  | append_singleton earlier file ih =>
    rw [hlib.concat]
    cases hbase : lib.build? earlier with
    | none =>
      obtain ⟨other, hmem, hother⟩ := ih.1 hbase
      exact iff_of_true rfl ⟨other, List.mem_append_left _ hmem, hother⟩
    | some base =>
      have hread : ∀ other ∈ earlier, lib.read? other ≠ none := by
        intro other hmem hother
        rw [ih.2 ⟨other, hmem, hother⟩] at hbase
        cases hbase
      simp only [Option.bind_some, Option.map_eq_none_iff, List.mem_append, List.mem_singleton]
      constructor
      · exact fun hfile => ⟨file, .inr rfl, hfile⟩
      · rintro ⟨other, hmem | rfl, hother⟩
        · exact absurd hother (hread other hmem)
        · exact hother

/-- Files that can be read make one table, which has under each key what they make of it one after
another. -/
theorem exists_build? {fs : List (Option Text)}
    (hfs : ∀ file? ∈ fs, ∀ file ∈ file?, file ∈ files ∧ (lib.read? file).isSome) :
    ∃ v, lib.build? (fs.filterMap id) = some v ∧ lib.isTable v ∧ ∀ key, lib.get? v key =
      lib.stack (fs.map fun file? => (file?.bind lib.read?).bind (lib.get? · key)) := by
  induction fs using List.reverseRecOn with
  | nil => exact hlib.none
  | append_singleton fs file? ih =>
    rw [List.forall_mem_append, List.forall_mem_singleton] at hfs
    obtain ⟨base, hbase, htable, hget⟩ := ih hfs.1
    rw [List.filterMap_append]
    cases file? with
    | none =>
      refine ⟨base, by simpa using hbase, htable, fun key => ?_⟩
      rw [List.map_append, List.map_singleton, stack_concat, hget]
      rfl
    | some file =>
      obtain ⟨hfile, hsome⟩ := hfs.2 file rfl
      obtain ⟨top, htop⟩ := Option.isSome_iff_exists.1 hsome
      have hmerged := hlib.add file hfile top htop base htable
      refine ⟨lib.add top base, ?_, hmerged.isTable, fun key => ?_⟩
      · show lib.build? (fs.filterMap id ++ [file]) = _
        rw [hlib.concat, hbase, htop]
        rfl
      · rw [List.map_append, List.map_singleton, stack_concat, hmerged.get?_eq, hget]
        simp [htop]

/-! ### What is seen of merged values -/

/-- For a view that sees in all tables the same, only the value of most weight counts. -/
theorem map_over? {α : Type} {view : lib.Value → α} {a : α}
    (hview : ∀ v, lib.isTable v → view v = a) :
    (lib.over? top? base?).map view = (top?.or base?).map view := by
  unfold over?
  split
  · next top base =>
    split
    · next htables =>
      have hmerged := (hlib.merge top base htables.1 htables.2).isTable
      simp [hview _ hmerged, hview top htables.1]
    · rfl
  · rfl
  · rw [Option.none_or]

theorem map_stack {α : Type} {view : lib.Value → α} {a : α}
    (hview : ∀ v, lib.isTable v → view v = a) (values : List (Option lib.Value)) :
    (lib.stack values).map view = (present values).head?.map view := by
  induction values using List.reverseRecOn with
  | nil => rfl
  | append_singleton values top? ih =>
    rw [stack_concat, map_over? hlib hview, Option.map_or, ih]
    cases top? with
    | none => rw [present_concat_none, Option.map_none, Option.none_or]
    | some top => rw [present_concat_some, List.head?_cons, Option.map_some, Option.some_or]

theorem isTable_stack (h : ∀ v, some v ∈ values → lib.isTable v) :
    ∀ v, lib.stack values = some v → lib.isTable v := by
  intro v hv
  have hsame : (lib.stack values).map lib.isTable = (present values).head?.map lib.isTable :=
    map_stack hlib (fun _ htable => htable) values
  rw [hv, Option.map_some] at hsame
  obtain ⟨top, htop, htable⟩ := Option.map_eq_some_iff.1 hsame.symm
  rw [← htable]
  exact h top (mem_present.1 (List.mem_of_mem_head? htop))

/-- Where no two tables meet at the end, the value of most weight is all that is left. -/
theorem stack_eq_head? (h : ¬ lib.Blends (present values)) :
    lib.stack values = (present values).head? := by
  induction values using List.reverseRecOn with
  | nil => rfl
  | append_singleton values top? ih =>
    rw [stack_concat]
    cases top? with
    | none =>
      rw [present_concat_none] at h ⊢
      exact ih h
    | some top =>
      rw [present_concat_some] at h ⊢
      have hsame : (lib.stack values).map lib.isTable = (present values).head?.map lib.isTable :=
        map_stack hlib (fun _ htable => htable) values
      cases hbase : lib.stack values with
      | none => rfl
      | some base =>
        show (if lib.isTable top ∧ lib.isTable base then _ else some top) = some top
        split
        · next htables =>
          rw [hbase, Option.map_some, htables.2] at hsame
          obtain ⟨next, hnext, htable⟩ := Option.map_eq_some_iff.1 hsame.symm
          obtain ⟨rest, hrest⟩ := List.head?_eq_some_iff.1 hnext
          rw [hrest] at h
          exact absurd ⟨htables.1, htable⟩ h
        · rfl

/-- What tables make together has under each key what they make of it. -/
theorem bind_over? (htop : ∀ v, top? = some v → lib.isTable v)
    (hbase : ∀ v, base? = some v → lib.isTable v) (key : Text) :
    (lib.over? top? base?).bind (lib.get? · key) =
      lib.over? (top?.bind (lib.get? · key)) (base?.bind (lib.get? · key)) := by
  cases top? with
  | none => rfl
  | some top =>
    cases base? with
    | none =>
      show lib.get? top key = lib.over? (lib.get? top key) none
      cases lib.get? top key <;> rfl
    | some base =>
      have htop := htop top rfl
      have hbase := hbase base rfl
      have hover : lib.over? (some top) (some base) = some (lib.merge top base) :=
        if_pos ⟨htop, hbase⟩
      rw [hover]
      exact (hlib.merge top base htop hbase).get?_eq key

theorem bind_stack (h : ∀ v, some v ∈ values → lib.isTable v) (key : Text) :
    (lib.stack values).bind (lib.get? · key) =
      lib.stack (values.map fun value? => value?.bind (lib.get? · key)) := by
  induction values using List.reverseRecOn with
  | nil => rfl
  | append_singleton values top? ih =>
    have hvalues : ∀ v, some v ∈ values → lib.isTable v := fun v hv => h v (by simp [hv])
    have htop : ∀ v, top? = some v → lib.isTable v := fun v hv => h v (by simp [hv])
    rw [List.map_append, List.map_singleton, stack_concat, stack_concat, ← ih hvalues]
    exact bind_over? hlib htop (isTable_stack hlib hvalues) key

end Files

end TagMarkup.Settings.Library
