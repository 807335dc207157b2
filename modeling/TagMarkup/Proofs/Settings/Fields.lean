import TagMarkup.Proofs.Settings.Merging

/-! The settings one by one. Each is given a value by what a table has under some key, and a table
in which delimiters are a table makes the settings that show all of these values
(`settingsOf_eq_ok_iff`), or none if a value does not convert. -/

namespace TagMarkup.Settings

/-- A setting that has a value of its own. -/
inductive Field
  | debug
  | memoize
  | onFailure
  | mark (role : Role)
  deriving DecidableEq, Repr

namespace Field

def Value : Field → Type
  | debug | memoize => Bool
  | onFailure => Fallback
  | mark _ => Text

instance : (f : Field) → DecidableEq f.Value
  | debug | memoize => inferInstanceAs (DecidableEq Bool)
  | onFailure => inferInstanceAs (DecidableEq Fallback)
  | mark _ => inferInstanceAs (DecidableEq Text)

def get : (f : Field) → Settings → f.Value
  | debug => Settings.debug
  | memoize => Settings.memoize
  | onFailure => Settings.onFailure
  | mark role => fun s => s.delimiters.get role

variable (lib : Library)

/-- What a table gives the setting. -/
def find? : Field → lib.Value → Option lib.Value
  | debug, v => lib.get? v "debug".toList
  | memoize, v => lib.get? v "memoize".toList
  | onFailure, v => lib.get? v "on_failure".toList
  | mark role, v => (lib.get? v "delimiters".toList).bind (lib.get? · role.name.toList)

def convert? : (f : Field) → lib.Value → Option f.Value
  | debug | memoize => lib.toBool?
  | onFailure => lib.toFallback?
  | mark _ => lib.toText?

/-- The settings have what a value converts to, or the default where there is none. -/
def Shows (f : Field) (value? : Option lib.Value) (s : Settings) : Prop :=
  match value? with
  | none => f.get s = f.get {}
  | some v => f.convert? lib v = some (f.get s)

instance (f : Field) :
    (value? : Option lib.Value) → (s : Settings) → Decidable (f.Shows lib value? s)
  | none, s => inferInstanceAs (Decidable (f.get s = f.get {}))
  | some v, s => inferInstanceAs (Decidable (f.convert? lib v = some (f.get s)))

/-- There is a value, and it does not convert. -/
def Fails (f : Field) (value? : Option lib.Value) : Prop :=
  ∃ v, value? = some v ∧ f.convert? lib v = none

variable {lib} {f : Field} {x y : Option lib.Value} {s : Settings}

theorem shows_congr (h : x.map (f.convert? lib) = y.map (f.convert? lib)) :
    f.Shows lib x s ↔ f.Shows lib y s := by
  cases x <;> cases y <;> simp_all [Shows]

theorem fails_congr (h : x.map (f.convert? lib) = y.map (f.convert? lib)) :
    f.Fails lib x ↔ f.Fails lib y := by
  cases x <;> cases y <;> simp_all [Fails]

theorem not_shows_of_fails (h : f.Fails lib x) : ¬ f.Shows lib x s := by
  obtain ⟨v, rfl, hv⟩ := h
  simp [Shows, hv]

theorem convert?_eq_none (hlib : lib.KeepsTables) (hf : f ≠ onFailure) :
    ∀ v, lib.isTable v → f.convert? lib v = none := by
  cases f with
  | onFailure => exact absurd rfl hf
  | debug | memoize => exact hlib.toBool?
  | mark role => exact hlib.toText?

/-- Values that do not fail can be shown all at once. -/
theorem exists_shows {values : Field → Option lib.Value}
    (h : ∀ f : Field, ¬ f.Fails lib (values f)) :
    ∃ s : Settings, ∀ f : Field, f.Shows lib (values f) s := by
  have hvalue (f : Field) :
      ∃ v : f.Value, ∀ s : Settings, f.get s = v → f.Shows lib (values f) s := by
    cases hv : values f with
    | none => exact ⟨f.get {}, fun s hs => hs⟩
    | some v =>
      cases hconvert : f.convert? lib v with
      | none => exact (h f ⟨v, hv, hconvert⟩).elim
      | some a => exact ⟨a, fun s hs => hconvert.trans (congrArg some hs.symm)⟩
  choose a ha using hvalue
  let marks : Marks := ⟨a (.mark .opener), a (.mark .closer), a (.mark .sep), a (.mark .subSep)⟩
  refine ⟨⟨a .debug, a .memoize, a .onFailure, marks⟩, fun f => ha f _ ?_⟩
  match f with
  | .debug | .memoize | .onFailure => rfl
  | .mark .opener | .mark .closer | .mark .sep | .mark .subSep => rfl

theorem convert_eq_ok_iff :
    convert (f.convert? lib) (f.get {}) x = .ok (f.get s) ↔ f.Shows lib x s := by
  unfold convert Shows
  cases x with
  | none => simp [eq_comm]
  | some v => cases hconvert : f.convert? lib v <;> simp [hconvert]

end Field

theorem bind_eq_ok {α β : Type} {x : Except SettingsError α} {g : α → Except SettingsError β}
    {b : β} : (x >>= g) = .ok b ↔ ∃ a, x = .ok a ∧ g a = .ok b := by
  cases x with
  | error e => simp [bind, Except.bind]
  | ok a => simp [bind, Except.bind]

theorem bind_ne_malformed {α β : Type} {x : Except SettingsError α}
    {g : α → Except SettingsError β} (hx : x ≠ .error .malformed)
    (hg : ∀ a, g a ≠ .error .malformed) : (x >>= g) ≠ .error .malformed := by
  cases x with
  | error e =>
    intro h
    cases h
    exact hx rfl
  | ok a => exact hg a

theorem convert_ne_malformed {α β : Type} (conversion : α → Option β) (default : β)
    (value? : Option α) : convert conversion default value? ≠ .error .malformed := by
  unfold convert
  split
  · nofun
  · split <;> nofun

namespace Library

variable {lib : Library} {v : lib.Value}

theorem fieldsOf_ne_malformed (v : lib.Value) (fields : List Text) :
    lib.fieldsOf v fields ≠ .error .malformed := by
  unfold fieldsOf
  split <;> nofun

theorem marksBy_ne_malformed (field : Text → Option lib.Value) :
    lib.marksBy field ≠ .error .malformed :=
  bind_ne_malformed (convert_ne_malformed _ _ _) fun _ =>
    bind_ne_malformed (convert_ne_malformed _ _ _) fun _ =>
      bind_ne_malformed (convert_ne_malformed _ _ _) fun _ =>
        bind_ne_malformed (convert_ne_malformed _ _ _) fun _ => nofun

theorem marksOf_ne_malformed (value? : Option lib.Value) :
    lib.marksOf value? ≠ .error .malformed := by
  unfold marksOf
  split
  · nofun
  · exact bind_ne_malformed (fieldsOf_ne_malformed _ _) fun _ => marksBy_ne_malformed _

theorem settingsOf_ne_malformed (v : lib.Value) : lib.settingsOf v ≠ .error .malformed :=
  bind_ne_malformed (fieldsOf_ne_malformed _ _) fun _ =>
    bind_ne_malformed (convert_ne_malformed _ _ _) fun _ =>
      bind_ne_malformed (convert_ne_malformed _ _ _) fun _ =>
        bind_ne_malformed (convert_ne_malformed _ _ _) fun _ =>
          bind_ne_malformed (marksOf_ne_malformed _) fun _ => nofun

theorem marksBy_eq_ok_iff {field : Text → Option lib.Value} {marks : Marks} :
    lib.marksBy field = .ok marks ↔ ∀ r : Role, lib.markOf field r = .ok (marks.get r) := by
  constructor
  · intro h
    obtain ⟨opener, hopener, h⟩ := bind_eq_ok.1 h
    obtain ⟨closer, hcloser, h⟩ := bind_eq_ok.1 h
    obtain ⟨sep, hsep, h⟩ := bind_eq_ok.1 h
    obtain ⟨subSep, hsubSep, h⟩ := bind_eq_ok.1 h
    cases h
    intro r
    cases r with
    | opener => exact hopener
    | closer => exact hcloser
    | sep => exact hsep
    | subSep => exact hsubSep
  · intro h
    exact bind_eq_ok.2 ⟨_, h .opener, bind_eq_ok.2 ⟨_, h .closer, bind_eq_ok.2 ⟨_, h .sep,
      bind_eq_ok.2 ⟨_, h .subSep, rfl⟩⟩⟩⟩

/-- A table in which delimiters, if there are any, are a table. -/
structure Regular (lib : Library) (v : lib.Value) : Prop where
  isTable : lib.isTable v
  delimiters : ∀ d, lib.get? v "delimiters".toList = some d → lib.isTable d

section Tables

variable (hlib : lib.KeepsTables)

include hlib

theorem fieldsOf_table (hv : lib.isTable v) (fields : List Text) :
    lib.fieldsOf v fields = .ok (lib.get? v) := by
  rw [fieldsOf, hlib.toFields? v hv]

/-- A table has its marks under their names, and where there is none, all marks are missing. -/
theorem marksOf_eq {value? : Option lib.Value} (h : ∀ v, value? = some v → lib.isTable v) :
    lib.marksOf value? = lib.marksBy fun name => value?.bind (lib.get? · name) := by
  cases value? with
  | none => rfl
  | some v =>
    rw [marksOf, fieldsOf_table hlib (h v rfl)]
    rfl

variable (hv : lib.Regular v)

include hv

theorem settingsOf_eq_ok_iff {s : Settings} :
    lib.settingsOf v = .ok s ↔ ∀ f : Field, f.Shows lib (f.find? lib v) s := by
  have hmarks : lib.marksOf (lib.get? v "delimiters".toList) = .ok s.delimiters ↔
      ∀ r : Role, (Field.mark r).Shows lib ((Field.mark r).find? lib v) s := by
    rw [marksOf_eq hlib hv.delimiters, marksBy_eq_ok_iff]
    exact forall_congr' fun r => Field.convert_eq_ok_iff (f := .mark r)
  constructor
  · intro h
    obtain ⟨field, hfield, h⟩ := bind_eq_ok.1 h
    obtain rfl := Except.ok.inj ((fieldsOf_table hlib hv.isTable _).symm.trans hfield)
    obtain ⟨debug, hdebug, h⟩ := bind_eq_ok.1 h
    obtain ⟨memoize, hmemoize, h⟩ := bind_eq_ok.1 h
    obtain ⟨onFailure, honFailure, h⟩ := bind_eq_ok.1 h
    obtain ⟨marks, hof, h⟩ := bind_eq_ok.1 h
    cases h
    intro f
    cases f with
    | debug => exact Field.convert_eq_ok_iff.1 hdebug
    | memoize => exact Field.convert_eq_ok_iff.1 hmemoize
    | onFailure => exact Field.convert_eq_ok_iff.1 honFailure
    | mark r => exact hmarks.1 hof r
  · intro h
    have hdebug := Field.convert_eq_ok_iff.2 (h .debug)
    have hmemoize := Field.convert_eq_ok_iff.2 (h .memoize)
    have honFailure := Field.convert_eq_ok_iff.2 (h .onFailure)
    have hof := hmarks.2 fun r => h (.mark r)
    exact bind_eq_ok.2 ⟨_, fieldsOf_table hlib hv.isTable _, bind_eq_ok.2 ⟨_, hdebug,
      bind_eq_ok.2 ⟨_, hmemoize, bind_eq_ok.2 ⟨_, honFailure, bind_eq_ok.2 ⟨_, hof, rfl⟩⟩⟩⟩⟩

theorem settingsOf_eq_unconvertible_iff :
    lib.settingsOf v = .error .unconvertible ↔ ∃ f : Field, f.Fails lib (f.find? lib v) := by
  constructor
  · intro h
    by_contra hfails
    obtain ⟨s, hs⟩ := Field.exists_shows (not_exists.1 hfails)
    rw [(settingsOf_eq_ok_iff hlib hv).2 hs] at h
    cases h
  · rintro ⟨f, hf⟩
    cases h : lib.settingsOf v with
    | error e =>
      cases e with
      | malformed => exact absurd h (settingsOf_ne_malformed v)
      | unconvertible => rfl
    | ok s =>
      exact absurd ((settingsOf_eq_ok_iff hlib hv).1 h f) (Field.not_shows_of_fails hf)

/-- The settings depend on nothing but what each value converts to. -/
theorem settingsOf_congr {v' : lib.Value} (hv' : lib.Regular v')
    (h : ∀ f : Field, (f.find? lib v').map (f.convert? lib) =
      (f.find? lib v).map (f.convert? lib)) : lib.settingsOf v' = lib.settingsOf v := by
  cases hs : lib.settingsOf v with
  | ok s =>
    rw [settingsOf_eq_ok_iff hlib hv] at hs
    rw [settingsOf_eq_ok_iff hlib hv']
    exact fun f => (Field.shows_congr (h f)).2 (hs f)
  | error e =>
    cases e with
    | malformed => exact absurd hs (settingsOf_ne_malformed v)
    | unconvertible =>
      rw [settingsOf_eq_unconvertible_iff hlib hv] at hs
      rw [settingsOf_eq_unconvertible_iff hlib hv']
      obtain ⟨f, hf⟩ := hs
      exact ⟨f, (Field.fails_congr (h f)).2 hf⟩

end Tables

end Library

end TagMarkup.Settings
