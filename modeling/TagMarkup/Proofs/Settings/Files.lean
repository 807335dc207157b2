import TagMarkup.Proofs.Settings.Keys
import TagMarkup.Proofs.Settings.Merging
import TagMarkup.Settings

/-! TOML files that are merged key by key. A key at the top of a file may be a path into what is
there already; files in which all keys are names are merged as tables are (`mergesByKey_toml`). -/

namespace TagMarkup.Settings

namespace Document

/-- What is laid over a document takes the place of what is there, but a table goes into a table. -/
theorem get?_overlay (top base : Document) (key : Text) :
    (top.overlay base).get? key =
      (top.get? key).elim (base.get? key) fun item => some (item.laidOver (base.get? key)) := by
  induction top with
  | nil => rfl
  | value k s rest ih =>
    rw [overlay, get?_set, get?, ih]
    by_cases hk : k = key
    · simp [hk, Item.laidOver]
    · simp [hk, Ne.symm hk]
  | array k es rest _ ih =>
    rw [overlay, get?_set, get?, ih]
    by_cases hk : k = key
    · simp [hk, Item.laidOver]
    · simp [hk, Ne.symm hk]
  | table k inner rest _ ih =>
    have hset : (table k inner rest).overlay base =
        (rest.overlay base).set k ((Item.table inner).laidOver (base.get? k)) := by
      rw [overlay]
      rcases base.get? k with _ | (_ | _ | _) <;> rfl
    rw [hset, get?_set, get?, ih]
    by_cases hk : k = key
    · simp [hk]
    · simp [hk, Ne.symm hk]

/-- Each key of the document is a name, and leads to no other place. -/
def Named : Document → Prop
  | nil => True
  | value key _ rest | array key _ rest | table key _ rest =>
    pathOfKey key = [.key key] ∧ rest.Named

instance decidableNamed : (d : Document) → Decidable d.Named
  | nil => inferInstanceAs (Decidable True)
  | value key _ rest | array key _ rest | table key _ rest =>
    have := decidableNamed rest
    inferInstanceAs (Decidable (pathOfKey key = [.key key] ∧ rest.Named))

theorem get?_place (d : Document) (key k : Text) (item : Item) :
    (d.place item [.key key]).get? k =
      if k = key then some (item.laidOver (d.get? key)) else d.get? k :=
  get?_set key k _ d

theorem get?_overlayPaths {file : Document} (hkeyed : file.Keyed) (hnamed : file.Named)
    (base : Document) (key : Text) :
    (overlayPaths file base).get? key =
      (file.get? key).elim (base.get? key) fun item => some (item.laidOver (base.get? key)) := by
  induction file generalizing base with
  | nil => rfl
  | value k s rest ih =>
    rw [overlayPaths, hnamed.1, ih hkeyed.2 hnamed.2, get?, get?_place]
    by_cases hk : k = key
    · subst hk
      simp [hkeyed.1]
    · simp [hk, Ne.symm hk]
  | array k es rest _ ih =>
    rw [overlayPaths, hnamed.1, ih hkeyed.2 hnamed.2, get?, get?_place]
    by_cases hk : k = key
    · subst hk
      simp [hkeyed.1]
    · simp [hk, Ne.symm hk]
  | table k inner rest _ ih =>
    rw [overlayPaths, hnamed.1, ih hkeyed.2.2 hnamed.2, get?, get?_place]
    by_cases hk : k = key
    · subst hk
      simp [hkeyed.1]
    · simp [hk, Ne.symm hk]

end Document

namespace Library

/-- The files in which all keys at the top are names, and those that cannot be read. -/
def named : Set Text := {file | ∀ d ∈ documentIn? file, d.Named}

instance (file : Text) : Decidable (file ∈ named) :=
  inferInstanceAs (Decidable (∀ d ∈ documentIn? file, d.Named))

theorem over?_toml (top : Item) (base? : Option Item) :
    toml.over? (some top) base? = some (top.laidOver base?) := by
  match top, base? with
  | .scalar _, none | .array _, none | .table _, none => rfl
  | .scalar _, some _ | .array _, some _ => rfl
  | .table _, some (.scalar _) | .table _, some (.array _) | .table _, some (.table _) => rfl

/-- A document with the entries of two others, key by key, is a merged table. -/
theorem isMerged_toml {d top base : Document}
    (h : ∀ key, d.get? key =
      (top.get? key).elim (base.get? key) fun item => some (item.laidOver (base.get? key))) :
    toml.IsMerged (.table d) (.table top) (.table base) := by
  refine ⟨rfl, fun key => (h key).trans ?_⟩
  show _ = toml.over? (top.get? key) (base.get? key)
  cases top.get? key with
  | none => rfl
  | some item => exact (over?_toml item (base.get? key)).symm

theorem mergesByKey_toml : toml.MergesByKey named where
  none := ⟨.table .nil, rfl, rfl, fun _ => rfl⟩
  concat earlier file := by
    show (merge? (earlier ++ [file])).map Item.table =
      ((merge? earlier).map Item.table).bind fun base =>
        ((documentIn? file).map Item.table).map fun top => toml.add top base
    rw [merge?, List.foldlM_append, ← merge?]
    cases merge? earlier with
    | none => rfl
    | some base =>
      simp only [Option.bind_eq_bind, Option.bind_some, List.foldlM_cons, List.foldlM_nil]
      cases documentIn? file <;> rfl
  add file hfile top htop base hbase := by
    obtain ⟨d, hd, rfl⟩ := Option.map_eq_some_iff.1 htop
    match base, hbase with
    | .table base, _ =>
      exact isMerged_toml (Document.get?_overlayPaths (Toml.read?_keyed hd) (hfile d hd) base)
  merge top base htop hbase := by
    match top, base, htop, hbase with
    | .table top, .table base, _, _ => exact isMerged_toml (top.get?_overlay base)

theorem keepsTables_toml : toml.KeepsTables where
  toBool? v hv := match v, hv with
    | .table _, _ => rfl
  toText? v hv := match v, hv with
    | .table _, _ => rfl
  toFields? v hv _ := match v, hv with
    | .table _, _ => rfl

end Library

end TagMarkup.Settings
