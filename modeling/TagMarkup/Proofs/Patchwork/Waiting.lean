import Mathlib.Data.List.Nodup
import TagMarkup.Proofs.Outline.Chains
import TagMarkup.Proofs.Patchwork.Fates

/-! Passes in which every tag of the template is left as it is a number of times and then gives way
to an answer that is ready. A tag is visited for the first time in the pass in which the last tag
inside it gives way, so a patchwork waits for the tags one inside another; every pass takes one off
the number of passes that it waits (`Rewritten.nears`). -/

namespace TagMarkup

/-- How often the tag at a path was visited. -/
def Visit.times (path : Path) (visits : List Visit) : Nat :=
  (visits.filterMap Visit.path?).count path

theorem Visit.times_append (path : Path) (vs us : List Visit) :
    times path (vs ++ us) = times path vs + times path us := by
  rw [times, List.filterMap_append, List.count_append]
  rfl

theorem Visit.times_one {v : Visit} {path : Path} (h : v.path? = some path) :
    times path [v] = 1 := by
  simp [times, h]

namespace Patchwork

/-- All regions are tags of the template. -/
def Templated : Patchwork → Prop
  | plain _ => True
  | patch _ kind inner rest => kind.path? ≠ none ∧ inner.Templated ∧ rest.Templated

/-- How many passes leave something to do, when each tag of the template is left as it is as often
as `left` says. -/
def wait (left : Path → Nat) : Patchwork → Nat
  | plain _ => 0
  | patch _ kind inner rest =>
    max ((kind.path?.map left).getD 0 + inner.wait left) (rest.wait left)

/-- A visited tag is left as it is if there is a time left for that, and otherwise gives way to an
answer that is ready. -/
def Patient (left : Path → Nat) (vs : List Visit) : Prop :=
  ∀ v ∈ vs, ∀ path, v.path? = some path →
    (left path = 0 → ∃ t, v.outcome? = some (.final t)) ∧
      (0 < left path → v.outcome? = some (.pending v.text))

section Templated

variable {d : Delimiters} {p q : Patchwork} {tags : Forest Tag} {n : Nat}

theorem templated_append : (p ++ q).Templated ↔ p.Templated ∧ q.Templated := by
  induction p with
  | plain t => cases q <;> simp [Templated]
  | patch lead kind inner rest _ ih =>
    simp only [patch_append, Templated, ih, and_assoc]

theorem wait_append (left : Path → Nat) (p q : Patchwork) :
    (p ++ q).wait left = max (p.wait left) (q.wait left) := by
  induction p with
  | plain t => cases q <;> simp [wait]
  | patch lead kind inner rest _ ih => simp only [patch_append, wait, ih, Nat.max_assoc]

theorem templated_label (around : Path) (index : Nat) (p : Patchwork) :
    (p.label around index).Templated := by
  induction p generalizing around index with
  | plain t => trivial
  | patch lead kind inner rest ihi ihr => exact ⟨by simp [RegionKind.path?], ihi _ _, ihr _ _⟩

/-- Before the first pass a template waits as long as the slowest chain of its tags. -/
theorem wait_label (k : Path → Nat) (h : Depicts d n p tags) (around : Path) (index : Nat) :
    (p.label around index).wait k = tags.delay k around index := by
  induction h generalizing around index with
  | plain => rfl
  | patch _ _ _ _ _ ihi ihr => simp [label, wait, RegionKind.path?, ihi, ihr]

end Templated

section Passes

variable {d : Delimiters} {p q : Patchwork} {vs us ws : List Visit} {left left' : Path → Nat}
  {path : Path} {kind : RegionKind}

namespace Patient

variable {v : Visit} {t : Text}

theorem mono (h : Patient left vs) (hs : us ⊆ vs) : Patient left us :=
  fun v hv => h v (hs hv)

theorem left_eq_zero (h : Patient left vs) (hv : v ∈ vs) (hpath : v.path? = some path)
    (ho : v.outcome? = some (.final t)) : left path = 0 := by
  by_contra hpos
  have hstays := (h v hv path hpath).2 (by omega)
  rw [ho] at hstays
  cases hstays

theorem left_pos (h : Patient left vs) (hv : v ∈ vs) (hpath : v.path? = some path)
    (ho : v.outcome? = some (.pending t)) : 0 < left path ∧ t = v.text := by
  by_cases hzero : left path = 0
  · obtain ⟨u, hu⟩ := (h v hv path hpath).1 hzero
    rw [ho] at hu
    cases hu
  · have hstays := (h v hv path hpath).2 (by omega)
    rw [ho] at hstays
    cases hstays
    exact ⟨by omega, rfl⟩

theorem answered (h : Patient left vs) (hv : v ∈ vs) (hpath : v.path? = some path) :
    ∃ a, v.outcome? = some a := by
  obtain ⟨hfinal, hstays⟩ := h v hv path hpath
  by_cases hzero : left path = 0
  · obtain ⟨t, ht⟩ := hfinal hzero
    exact ⟨_, ht⟩
  · exact ⟨_, hstays (by omega)⟩

end Patient

theorem Rewritten.times_eq_zero (h : Rewritten d p vs q) (hp : path ∉ p.paths) :
    Visit.times path vs = 0 :=
  List.count_eq_zero_of_not_mem fun hmem => hp (h.fates.visited_sublist.subset hmem)

theorem Settled.times_eq_zero (h : Settled d kind p us q) (hp : kind.path? ≠ some path) :
    Visit.times path us = 0 := by
  have hvisit (v : Visit) (hv : v.path? ≠ some path) : Visit.times path [v] = 0 := by
    apply List.count_eq_zero_of_not_mem
    intro hmem
    obtain ⟨w, hw, hpath⟩ := List.mem_filterMap.1 hmem
    rw [List.mem_singleton.1 hw] at hpath
    exact hv hpath
  cases h with
  | gone | waits => rfl
  | stays v _ | final v _ _ | pending v _ _ _ => exact hvisit v hp

/-- In one pass a tag is visited once at most. -/
theorem Attended.times_le_one (h : Attended d p.tags vs) (hn : p.paths.Nodup) (path : Path) :
    Visit.times path vs ≤ 1 :=
  List.nodup_iff_count_le_one.1 (hn.sublist h.sublist) path

/-- A tag that is still there was not visited more often than it had times left. -/
theorem Rewritten.times_le (h : Rewritten d p vs q) (hn : p.paths.Nodup) (hv : Patient left vs)
    (hq : path ∈ q.paths) : Visit.times path vs ≤ left path := by
  by_cases hvisited : path ∈ vs.filterMap Visit.path?
  · obtain ⟨v, hmem, hpath⟩ := List.mem_filterMap.1 hvisited
    obtain ⟨x, hx⟩ := mem_paths.1 hq
    have hstays := (h.fates.of_visit_left hn hmem hpath hx).1
    have hleft := (hv.left_pos hmem hpath hstays).1
    have honce := h.fates.attended.times_le_one hn path
    omega
  · rw [Visit.times, List.count_eq_zero_of_not_mem hvisited]
    exact Nat.zero_le _

/-- What a pass with the visits `vs` has done with something that waited for `n` passes more: it now
waits for one pass less, and if it did not have to wait, it is finished. -/
structure Nears (left' : Path → Nat) (n : Nat) (vs : List Visit) (q : Patchwork) : Prop where
  templated : q.Templated
  wait : q.wait left' = n - 1
  plain : q.isPlain = true ↔ n = 0
  final : n = 0 → ∀ v ∈ vs, ∃ t, v.outcome? = some (.final t)

theorem Nears.lead (left : Path → Nat) (t : Text) : Nears left 0 [] (Patchwork.plain t) :=
  ⟨trivial, rfl, by simp [Patchwork.isPlain], by simp⟩

theorem Nears.append {m n : Nat} (h : Nears left m vs p) (h' : Nears left n us q) :
    Nears left (max m n) (vs ++ us) (p ++ q) where
  templated := templated_append.2 ⟨h.templated, h'.templated⟩
  wait := by
    rw [wait_append, h.wait, h'.wait]
    omega
  plain := by
    rw [isPlain_append, Bool.and_eq_true, h.plain, h'.plain]
    omega
  final := by
    intro hzero v hv
    rcases List.mem_append.1 hv with hv | hv
    · exact h.final (by omega) v hv
    · exact h'.final (by omega) v hv

/-- A tag waits for what is inside it first, and then for itself. -/
theorem Settled.nears {n : Nat} (h : Settled d kind p us q) (hk : kind.path? = some path)
    (hp : Nears left' n vs p) (hv : Patient left us)
    (hl : left' path = left path - Visit.times path us) :
    Nears left' (left path + n) (vs ++ us) q := by
  cases h with
  | gone t => cases hk
  | waits kind open_ =>
    have hn : n ≠ 0 := fun hn => by
      rw [hp.plain.2 hn] at open_
      cases open_
    have hsame : left' path = left path := hl
    refine ⟨⟨by simp [hk], hp.templated, trivial⟩, ?_, ?_, by omega⟩
    · simp only [one, wait, hk, Option.map_some, Option.getD_some, hp.wait, hsame]
      omega
    · simp only [one, isPlain, Bool.false_eq_true, false_iff]
      omega
  | stays v outcome =>
    have hn : n = 0 := hp.plain.1 rfl
    have hpath : v.path? = some path := hk
    have hpos := (hv.left_pos List.mem_cons_self hpath outcome).1
    rw [Visit.times_one hpath] at hl
    refine ⟨⟨by simp [hk], trivial, trivial⟩, ?_, ?_, by omega⟩
    · simp only [one, wait, hk, Option.map_some, Option.getD_some, hl]
      omega
    · simp only [one, isPlain, Bool.false_eq_true, false_iff]
      omega
  | final v t outcome =>
    have hn : n = 0 := hp.plain.1 rfl
    have hzero := hv.left_eq_zero List.mem_cons_self hk outcome
    have hfinal : Nears left' 0 (vs ++ [v]) (plain t) := by
      refine ⟨trivial, rfl, by simp [isPlain], fun _ w hw => ?_⟩
      rcases List.mem_append.1 hw with hw | hw
      · exact hp.final hn w hw
      · rw [List.mem_singleton.1 hw]
        exact ⟨t, outcome⟩
    rwa [hn, hzero]
  | pending v t outcome changed =>
    exact absurd (hv.left_pos List.mem_cons_self hk outcome).2 changed

/-- Every pass takes one off the number of passes that a patchwork waits. -/
theorem Rewritten.nears (h : Rewritten d p vs q) (ht : p.Templated) (hn : p.paths.Nodup)
    (hv : Patient left vs) (hl : ∀ path ∈ p.paths, left' path = left path - Visit.times path vs) :
    Nears left' (p.wait left) vs q := by
  induction h with
  | plain t => exact .lead left' t
  | @patch lead kind inner rest inner' middle rest' vs us ws inside settled after ihi ihr =>
    obtain ⟨hkind, hti, htr⟩ := ht
    obtain ⟨path, hk⟩ := Option.ne_none_iff_exists'.1 hkind
    have hpaths : (Patchwork.patch lead kind inner rest).paths =
        inner.paths ++ ([path] ++ rest.paths) := by
      simp [paths, tags, own, hk]
    rw [hpaths] at hn hl
    obtain ⟨hni, hnr, hapart⟩ := List.nodup_append.1 hn
    obtain ⟨-, hnr, hfresh⟩ := List.nodup_append.1 hnr
    have htimes (a : Path) : Visit.times a (vs ++ (us ++ ws)) =
        Visit.times a vs + (Visit.times a us + Visit.times a ws) := by
      rw [Visit.times_append, Visit.times_append]
    -- a tag inside the region, the region and a tag after it are visited in their own parts only
    have hinner : Nears left' (inner.wait left) vs inner' := by
      refine ihi hti hni (hv.mono (by simp)) fun a ha => ?_
      have hus : Visit.times a us = 0 := settled.times_eq_zero fun heq =>
        hapart a ha path (by simp) (Option.some.inj (heq.symm.trans hk))
      have hws : Visit.times a ws = 0 := after.times_eq_zero fun hmem =>
        hapart a ha a (by simp [hmem]) rfl
      rw [hl a (by simp [ha]), htimes, hus, hws]
      rfl
    have hregion : Nears left' (left path + inner.wait left) (vs ++ us) middle := by
      refine settled.nears hk hinner (hv.mono (by simp)) ?_
      have hvs : Visit.times path vs = 0 := inside.times_eq_zero fun hmem =>
        hapart path hmem path (by simp) rfl
      have hws : Visit.times path ws = 0 := after.times_eq_zero fun hmem =>
        hfresh path (by simp) path hmem rfl
      rw [hl path (by simp), htimes, hvs, hws, Nat.zero_add, Nat.add_zero]
    have hrest : Nears left' (rest.wait left) ws rest' := by
      refine ihr htr hnr (hv.mono (by simp)) fun a ha => ?_
      have hvs : Visit.times a vs = 0 := inside.times_eq_zero fun hmem =>
        hapart a hmem a (by simp [ha]) rfl
      have hus : Visit.times a us = 0 := settled.times_eq_zero fun heq =>
        hfresh path (by simp) a ha (Option.some.inj (hk.symm.trans heq))
      rw [hl a (by simp [ha]), htimes, hvs, hus, Nat.zero_add, Nat.zero_add]
    have hall := ((Nears.lead left' lead).append hregion).append hrest
    simpa [Patchwork.wait, hk] using hall

/-- No pass over tags of the template stops for want of an answer when all its visits have one. -/
theorem Stopped.not_patient (h : Stopped d p vs) (ht : p.Templated) : ¬ Patient left vs := by
  induction h with
  | inside lead kind rest _ ih => exact ih ht.2.1
  | here lead rest v inside outcome =>
    intro hv
    obtain ⟨path, hpath⟩ := Option.ne_none_iff_exists'.1 ht.1
    obtain ⟨a, ha⟩ := hv.answered (by simp) hpath
    rw [outcome] at ha
    cases ha
  | after lead kind inside settled _ ih => exact fun hv => ih ht.2.2 (hv.mono (by simp))

end Passes

end Patchwork

end TagMarkup
