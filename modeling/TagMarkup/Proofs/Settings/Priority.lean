import TagMarkup.Proofs.Settings.Fields
import TagMarkup.Proofs.Settings.Files

/-! Which file decides a setting. A file weighs more than those before it, so the last one that
gives a setting a value decides it (`load_highest`). A fallback may be written as a table, and
tables are merged, so this fails where the table that should decide the fallback is laid over
another one (`shadowed_table_seen`). -/

namespace TagMarkup.Settings

open Library (present)

namespace Field

variable (lib : Library)

/-- What a file gives the setting. A missing file gives nothing. -/
def given? (f : Field) (file? : Option Text) : Option lib.Value :=
  (file?.bind lib.read?).bind (f.find? lib)

/-- What files give the setting, from the one of most weight. -/
def values (f : Field) (fs : List (Option Text)) : List lib.Value := present (fs.map (f.given? lib))

/-- What the file of most weight gives the setting, of the files that give it anything. -/
def winner (f : Field) (fs : List (Option Text)) : Option lib.Value := (f.values lib fs).head?

/-- What decides the setting in the end. The fallback is decided by what the files make of it
together, which where two tables meet is more than the file of most weight gives. -/
def decisive (f : Field) (fs : List (Option Text)) : Option lib.Value :=
  match f with
  | onFailure => lib.stack (fs.map (onFailure.given? lib))
  | f => f.winner lib fs

theorem decisive_of_ne {f : Field} (hf : f ≠ onFailure) (fs : List (Option Text)) :
    f.decisive lib fs = f.winner lib fs := by
  cases f with
  | onFailure => exact absurd rfl hf
  | debug | memoize | mark => rfl

end Field

/-- The file is missing, or it is a well-formed one of these files, and if it has anything under
`delimiters`, it is a table. -/
def Library.Admits (lib : Library) (files : Set Text) (file? : Option Text) : Prop :=
  ∀ file ∈ file?, file ∈ files ∧ ∃ d ∈ lib.read? file,
    ∀ v ∈ lib.get? d "delimiters".toList, lib.isTable v

instance (lib : Library) (files : Set Text) [DecidablePred (· ∈ files)] (file? : Option Text) :
    Decidable (lib.Admits files file?) :=
  inferInstanceAs (Decidable (∀ file ∈ file?, file ∈ files ∧ ∃ d ∈ lib.read? file,
    ∀ v ∈ lib.get? d "delimiters".toList, lib.isTable v))

variable {lib : Library} {files : Set Text} {fs fs' : List (Option Text)}
  {user hidden project user' hidden' : Option Text} {f : Field}

section Files

variable (hlib : lib.MergesByKey files)

include hlib

theorem load_eq_malformed_iff : lib.load user hidden project = .error .malformed ↔
    ∃ file? ∈ [user, hidden, project], ∃ file ∈ file?, lib.read? file = none := by
  have hfiles : (∃ file? ∈ [user, hidden, project], ∃ file ∈ file?, lib.read? file = none) ↔
      ∃ file ∈ [user, hidden, project].filterMap id, lib.read? file = none := by
    simp only [List.mem_filterMap, id]
    constructor
    · rintro ⟨file?, hmem, file, hfile, hread⟩
      exact ⟨file, ⟨file?, hmem, hfile⟩, hread⟩
    · rintro ⟨file, ⟨file?, hmem, hfile⟩, hread⟩
      exact ⟨file?, hmem, file, hfile, hread⟩
  rw [hfiles, ← Library.build?_eq_none_iff hlib, Library.load]
  cases lib.build? ([user, hidden, project].filterMap id) with
  | none => exact iff_of_true rfl rfl
  | some v => exact iff_of_false (Library.settingsOf_ne_malformed v) nofun

/-- The files make one table, and what it gives a setting is what they make of it one after
another. -/
theorem exists_merged (hfs : ∀ file? ∈ fs, lib.Admits files file?) :
    ∃ v, lib.build? (fs.filterMap id) = some v ∧ lib.Regular v ∧
      ∀ f : Field, f.find? lib v = lib.stack (fs.map (f.given? lib)) := by
  obtain ⟨v, hbuild, htable, hget⟩ := Library.exists_build? hlib fun file? hfile? file hfile => by
    obtain ⟨hmem, d, hread, -⟩ := hfs file? hfile? file hfile
    exact ⟨hmem, Option.isSome_of_eq_some hread⟩
  have htables : ∀ d, some d ∈ fs.map (fun file? =>
      (file?.bind lib.read?).bind (lib.get? · "delimiters".toList)) → lib.isTable d := by
    intro d hd
    obtain ⟨file?, hfile?, hgiven⟩ := List.mem_map.1 hd
    obtain ⟨v, hv, hd⟩ := Option.bind_eq_some_iff.1 hgiven
    obtain ⟨file, rfl, hread⟩ := Option.bind_eq_some_iff.1 hv
    obtain ⟨-, v', hread', hall⟩ := hfs _ hfile? file rfl
    obtain rfl := Option.some.inj (hread.symm.trans hread')
    exact hall d hd
  refine ⟨v, hbuild, ⟨htable, fun d hd => ?_⟩, fun f => ?_⟩
  · exact Library.isTable_stack hlib htables d ((hget _).symm.trans hd)
  · cases f with
    | debug | memoize | onFailure => exact hget _
    | mark role =>
      rw [Field.find?, hget, Library.bind_stack hlib htables, List.map_map]
      congr 2
      funext file?
      exact Option.bind_assoc _ _ _

/-- The files make one table, whose values convert to what the decisive ones convert to. -/
theorem exists_decided (hkeeps : lib.KeepsTables) (hfs : ∀ file? ∈ fs, lib.Admits files file?) :
    ∃ v, lib.build? (fs.filterMap id) = some v ∧ lib.Regular v ∧
      ∀ f : Field, (f.find? lib v).map (f.convert? lib) =
        (f.decisive lib fs).map (f.convert? lib) := by
  obtain ⟨v, hbuild, hv, hgiven⟩ := exists_merged hlib hfs
  refine ⟨v, hbuild, hv, fun f => ?_⟩
  rw [hgiven]
  by_cases hf : f = .onFailure
  · subst hf
    rfl
  · rw [Field.decisive_of_ne lib hf]
    exact Library.map_stack hlib (Field.convert?_eq_none hkeeps hf) _

theorem decisive_eq_winner (h : ¬ lib.Blends (Field.onFailure.values lib fs)) (f : Field) :
    f.decisive lib fs = f.winner lib fs := by
  by_cases hf : f = .onFailure
  · subst hf
    exact Library.stack_eq_head? hlib h
  · exact Field.decisive_of_ne lib hf fs

/-- Files of which the same values are decisive lead to the same settings, or to none. -/
theorem load_congr (hkeeps : lib.KeepsTables)
    (hadmits : ∀ file? ∈ [user, hidden, project], lib.Admits files file?)
    (hadmits' : ∀ file? ∈ [user', hidden', project], lib.Admits files file?)
    (h : ∀ f : Field, f.decisive lib [user', hidden', project] =
      f.decisive lib [user, hidden, project]) :
    lib.load user' hidden' project = lib.load user hidden project := by
  obtain ⟨v, hbuild, hv, hdecided⟩ := exists_decided hlib hkeeps hadmits
  obtain ⟨v', hbuild', hv', hdecided'⟩ := exists_decided hlib hkeeps hadmits'
  rw [Library.load, Library.load, hbuild, hbuild']
  refine Library.settingsOf_congr hkeeps hv hv' fun f => ?_
  rw [hdecided', h f, hdecided]

end Files

/-- What the user's file and the hidden file give the setting is the same in the other two, as far
as no file of more weight gives it anything. -/
def Shadowed (lib : Library) (f : Field) (user hidden project user' hidden' : Option Text) : Prop :=
  (f.given? lib user' = f.given? lib user ∨ (f.given? lib hidden).isSome ∨
    (f.given? lib project).isSome) ∧
  (f.given? lib hidden' = f.given? lib hidden ∨ (f.given? lib project).isSome)

theorem winner_three (f : Field) (user hidden project : Option Text) :
    f.winner lib [user, hidden, project] =
      (f.given? lib project).or ((f.given? lib hidden).or (f.given? lib user)) := by
  unfold Field.winner Field.values present
  simp only [List.map_cons, List.map_nil]
  cases f.given? lib project <;> cases f.given? lib hidden <;> cases f.given? lib user <;> rfl

/-- A shadowed value decides nothing. -/
theorem Shadowed.winner_eq (h : Shadowed lib f user hidden project user' hidden') :
    f.winner lib [user', hidden', project] = f.winner lib [user, hidden, project] := by
  rw [winner_three, winner_three]
  obtain ⟨huser, hhidden⟩ := h
  cases hp : f.given? lib project with
  | some v => rfl
  | none =>
    rw [hhidden.resolve_right (by simp [hp])]
    cases hh : f.given? lib hidden with
    | some v => rfl
    | none => rw [huser.resolve_right (by simp [hp, hh])]

/-- Shadowed values decide nothing, if no two tables meet under `on_failure`. -/
theorem Shadowed.decisive_eq (hlib : lib.MergesByKey files)
    (h : ∀ f, Shadowed lib f user hidden project user' hidden')
    (hcase : ¬ lib.Blends (Field.onFailure.values lib [user, hidden, project]) ∧
        ¬ lib.Blends (Field.onFailure.values lib [user', hidden', project]) ∨
      Field.onFailure.given? lib user' = Field.onFailure.given? lib user ∧
        Field.onFailure.given? lib hidden' = Field.onFailure.given? lib hidden) (f : Field) :
    f.decisive lib [user', hidden', project] = f.decisive lib [user, hidden, project] := by
  rcases hcase with ⟨hblends, hblends'⟩ | ⟨huser, hhidden⟩
  · rw [decisive_eq_winner hlib hblends, decisive_eq_winner hlib hblends', (h f).winner_eq]
  · by_cases hf : f = .onFailure
    · subst hf
      simp only [Field.decisive, List.map_cons, huser, hhidden]
    · rw [Field.decisive_of_ne lib hf, Field.decisive_of_ne lib hf, (h f).winner_eq]

/-- Settings from a library that merges these files key by key. A file that is not well formed lets
nothing be loaded. Of other files, the one of most weight that gives a setting anything decides it,
and where none does, the default stands. Loading fails just when what decides a setting does not
convert, and what is shadowed has no effect. Only a fallback that is written as a table is decided
otherwise, if there is another table right below it: the two are merged. -/
theorem load_highest (hlib : lib.MergesByKey files) (hkeeps : lib.KeepsTables)
    (user hidden project : Option Text) :
    (lib.load user hidden project = .error .malformed ↔
      ∃ file? ∈ [user, hidden, project], ∃ file ∈ file?, lib.read? file = none) ∧
    ((∀ file? ∈ [user, hidden, project], lib.Admits files file?) →
      (∀ s, lib.load user hidden project = .ok s ↔
        ∀ f : Field, f.Shows lib (f.decisive lib [user, hidden, project]) s) ∧
      (lib.load user hidden project = .error .unconvertible ↔
        ∃ f : Field, f.Fails lib (f.decisive lib [user, hidden, project])) ∧
      (∀ f ≠ Field.onFailure, f.decisive lib [user, hidden, project] =
        f.winner lib [user, hidden, project]) ∧
      (¬ lib.Blends (Field.onFailure.values lib [user, hidden, project]) →
        ∀ f : Field, f.decisive lib [user, hidden, project] =
          f.winner lib [user, hidden, project]) ∧
      ∀ user' hidden', lib.Admits files user' → lib.Admits files hidden' →
        (∀ f, Shadowed lib f user hidden project user' hidden') →
        (¬ lib.Blends (Field.onFailure.values lib [user, hidden, project]) ∧
            ¬ lib.Blends (Field.onFailure.values lib [user', hidden', project]) ∨
          Field.onFailure.given? lib user' = Field.onFailure.given? lib user ∧
            Field.onFailure.given? lib hidden' = Field.onFailure.given? lib hidden) →
        lib.load user' hidden' project = lib.load user hidden project) := by
  refine ⟨load_eq_malformed_iff hlib, fun hadmits => ?_⟩
  obtain ⟨v, hbuild, hv, hdecided⟩ := exists_decided hlib hkeeps hadmits
  have hload : lib.load user hidden project = lib.settingsOf v := by rw [Library.load, hbuild]
  refine ⟨fun s => ?_, ?_, fun f hf => Field.decisive_of_ne lib hf _, decisive_eq_winner hlib,
    fun user' hidden' huser' hhidden' hshadowed hcase => ?_⟩
  · rw [hload, Library.settingsOf_eq_ok_iff hkeeps hv]
    exact forall_congr' fun f => Field.shows_congr (hdecided f)
  · rw [hload, Library.settingsOf_eq_unconvertible_iff hkeeps hv]
    exact exists_congr fun f => Field.fails_congr (hdecided f)
  · have hadmits' : ∀ file? ∈ [user', hidden', project], lib.Admits files file? := by
      simpa [huser', hhidden'] using hadmits project (by simp)
    exact load_congr hlib hkeeps hadmits hadmits' (Shadowed.decisive_eq hlib hshadowed hcase)

/-! ### TOML files -/

instance : DecidableEq Library.toml.Value := inferInstanceAs (DecidableEq Item)

theorem admits_toml {file : Text} {d : Document} (h : documentIn? file = some d)
    (hnamed : d.Named) (htable : ∀ v ∈ d.get? "delimiters".toList, v.isTable) :
    Library.toml.Admits Library.named (some file) := by
  intro f hf
  obtain rfl := Option.some.inj hf
  refine ⟨fun d' hd' => ?_, .table d, congrArg (Option.map Item.table) h, htable⟩
  obtain rfl := Option.some.inj (h.symm.trans hd')
  exact hnamed

theorem given?_toml {file : Text} {d : Document} (h : documentIn? file = some d) (f : Field) :
    f.given? Library.toml (some file) = f.find? Library.toml (.table d) := by
  have hread : Library.toml.read? file = some (.table d) := congrArg (Option.map Item.table) h
  rw [Field.given?, Option.bind_some, hread]
  rfl

/-- A truth value and a mark that do not convert are shadowed, and so are two tables under
`on_failure`. -/
theorem load_highest_shadowed :
    let user : Text := ("debug = \"maybe\"\nmemoize = true\n[delimiters]\nopen = [1]\n" ++
      "sep = \"//\"\n[on_failure]\nretry = 1\n").toList
    let user' : Text := "memoize = true\n[delimiters]\nsep = \"//\"\n".toList
    let hidden : Text :=
      "debug = \"yes\"\ndelimiters.open = \"<\"\non_failure.abort = 1\n".toList
    let project : Text :=
      "on_failure = \"passthrough\"\n[delimiters]\nclose = \">\"\n".toList
    load (some user) (some hidden) (some project) = .ok
        { debug := true, memoize := true, onFailure := .passthrough,
          delimiters := ⟨"<".toList, ">".toList, "//".toList, "||".toList⟩ } ∧
      load (some user') (some hidden) (some project) =
        load (some user) (some hidden) (some project) := by
  intro user user' hidden project
  let u : Document :=
    .value "debug".toList (.text "maybe".toList) <|
    .value "memoize".toList (.bool true) <|
    .table "delimiters".toList (.array "open".toList (.ofItems [.scalar (.int 1)]) <|
      .value "sep".toList (.text "//".toList) .nil) <|
    .table "on_failure".toList (.value "retry".toList (.int 1) .nil) .nil
  let u' : Document :=
    .value "memoize".toList (.bool true) <|
    .table "delimiters".toList (.value "sep".toList (.text "//".toList) .nil) .nil
  let h : Document :=
    .value "debug".toList (.text "yes".toList) <|
    .table "delimiters".toList (.value "open".toList (.text "<".toList) .nil) <|
    .table "on_failure".toList (.value "abort".toList (.int 1) .nil) .nil
  let p : Document :=
    .value "on_failure".toList (.text "passthrough".toList) <|
    .table "delimiters".toList (.value "close".toList (.text ">".toList) .nil) .nil
  have hu : documentIn? user = some u := by decide +kernel
  have hu' : documentIn? user' = some u' := by decide +kernel
  have hh : documentIn? hidden = some h := by decide +kernel
  have hp : documentIn? project = some p := by decide +kernel
  have huser := admits_toml hu (by decide +kernel) (by decide +kernel)
  have huser' := admits_toml hu' (by decide +kernel) (by decide +kernel)
  have hhidden := admits_toml hh (by decide +kernel) (by decide +kernel)
  have hproject := admits_toml hp (by decide +kernel) (by decide +kernel)
  obtain ⟨-, hall⟩ := load_highest Library.mergesByKey_toml Library.keepsTables_toml
    (some user) (some hidden) (some project)
  obtain ⟨hloads, -, -, hwinner, hshadowed⟩ := hall (by simp [huser, hhidden, hproject])
  have hvalues (user : Text) (d : Document) (hd : documentIn? user = some d) :
      Field.onFailure.values Library.toml [some user, some hidden, some project] =
        present [Field.onFailure.find? Library.toml (.table d),
          Field.onFailure.find? Library.toml (.table h),
          Field.onFailure.find? Library.toml (.table p)] := by
    simp only [Field.values, List.map_cons, List.map_nil, given?_toml hd, given?_toml hh,
      given?_toml hp]
  have hblends : ¬ Library.toml.Blends
      (Field.onFailure.values Library.toml [some user, some hidden, some project]) := by
    rw [hvalues user u hu]
    decide +kernel
  have hblends' : ¬ Library.toml.Blends
      (Field.onFailure.values Library.toml [some user', some hidden, some project]) := by
    rw [hvalues user' u' hu']
    decide +kernel
  refine ⟨(hloads _).2 fun f => ?_,
    hshadowed _ _ huser' hhidden (fun f => ?_) (.inl ⟨hblends, hblends'⟩)⟩
  · rw [hwinner hblends, winner_three, given?_toml hu, given?_toml hh, given?_toml hp]
    match f with
    | .debug | .memoize | .onFailure => decide +kernel
    | .mark .opener | .mark .closer | .mark .sep | .mark .subSep => decide +kernel
  · rw [Shadowed, given?_toml hu, given?_toml hu', given?_toml hh, given?_toml hp]
    match f with
    | .debug | .memoize | .onFailure => decide +kernel
    | .mark .opener | .mark .closer | .mark .sep | .mark .subSep => decide +kernel

/-- Two tables under `on_failure` are merged, and a fallback is read from a table of one key. So a
table of less weight may take the fallback from another one that has a key of its own, and give it
to one that has none. -/
theorem shadowed_table_seen :
    let user : Text := "[on_failure]\nabort = 1\n".toList
    let retrying : Text := "[on_failure]\nretry = 1\n".toList
    let empty : Text := "[on_failure]\n".toList
    (Library.toml.MergesByKey Library.named ∧ Library.toml.KeepsTables ∧
      ∀ file ∈ [user, retrying, empty], Library.toml.Admits Library.named (some file)) ∧
    load none none (some retrying) = .ok { onFailure := .retry } ∧
    load (some user) none (some retrying) = .error .unconvertible ∧
    load none none (some empty) = .error .unconvertible ∧
    load (some user) none (some empty) = .ok { onFailure := .abort } := by
  intro user retrying empty
  exact ⟨⟨Library.mergesByKey_toml, Library.keepsTables_toml, by decide +kernel⟩,
    by decide +kernel⟩

end TagMarkup.Settings
