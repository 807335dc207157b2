import TagMarkup.Filter.Macro
import TagMarkup.Proofs.Markup.Joining
import TagMarkup.Proofs.Markup.Standard

/-! The bodies of defined filters. A body is kept in groups of values, and each value is filled on
its own; but the separators between them are not touched, so that the result is the whole body with
groups in the place of its percent signs (`expand_templateGroups`): what one pass over it from the
left gives (`expand_sweeps`). -/

namespace TagMarkup

open Delimiters (standard)

namespace Text

variable {p : Char → Bool} {t u : Text}

theorem takeWhile_append_stop (t : Text) (hu : ∀ c ∈ u.head?, p c = false) :
    (t ++ u).takeWhile p = t.takeWhile p := by
  induction t with
  | nil =>
    cases u with
    | nil => rfl
    | cons c u => simp [hu c rfl]
  | cons c t ih => simp only [List.cons_append, List.takeWhile_cons, ih]

theorem dropWhile_append_stop (t : Text) (hu : ∀ c ∈ u.head?, p c = false) :
    (t ++ u).dropWhile p = t.dropWhile p ++ u := by
  induction t with
  | nil =>
    cases u with
    | nil => rfl
    | cons c u => simp [hu c rfl]
  | cons c t ih =>
    rw [List.cons_append, List.dropWhile_cons, List.dropWhile_cons, ih]
    split <;> rfl

/-- The characters at the front that satisfy `p` end where one comes that does not. -/
theorem takeWhile_run (ht : ∀ c ∈ t, p c = true) (hu : ∀ c ∈ u.head?, p c = false) :
    (t ++ u).takeWhile p = t ∧ (t ++ u).dropWhile p = u := by
  have htake := takeWhile_append_stop (p := p) [] hu
  have hdrop := dropWhile_append_stop (p := p) [] hu
  rw [List.nil_append] at htake hdrop
  rw [List.takeWhile_append_of_pos ht, List.dropWhile_append_of_pos ht, htake, hdrop]
  simp

theorem splitOn_append {c : Char} (h : c ∉ t) (u : Text) :
    (t ++ u).splitOn c = (u.splitOn c).modifyHead (t ++ ·) := by
  induction t with
  | nil =>
    show u.splitOn c = (u.splitOn c).modifyHead fun v => v
    cases u.splitOn c <;> rfl
  | cons x t ih =>
    have hx : (x == c) = false := by
      rw [beq_eq_false_iff_ne]
      rintro rfl
      exact h List.mem_cons_self
    have ht : c ∉ t := fun hc => h (List.mem_cons_of_mem _ hc)
    rw [List.cons_append, List.splitOn_cons_eq_if_modifyHead, if_neg (by simp [hx]), ih ht,
      List.modifyHead_modifyHead]
    rfl

/-- What stands in front of the first `c` stands in front of the text. -/
theorem prefix_of_splitOn {c : Char} {first : Text} {rest : List Text}
    (h : u.splitOn c = first :: rest) : first <+: u := by
  have hjoin : [c].intercalate (u.splitOn c) = u := List.intercalate_splitOn c
  rw [h] at hjoin
  rw [← hjoin]
  cases rest with
  | nil => simp
  | cons second rest => simp [List.append_assoc]

theorem mem_intercalate {sep : Text} {ts : List Text} {c : Char} (h : c ∈ sep.intercalate ts) :
    c ∈ sep ∨ ∃ t ∈ ts, c ∈ t := by
  cases ts with
  | nil => cases h
  | cons t ts =>
    rw [intercalate_cons, List.mem_append, List.mem_flatMap] at h
    rcases h with h | ⟨u, hu, h⟩
    · exact .inr ⟨t, List.mem_cons_self, h⟩
    · rcases List.mem_append.1 h with h | h
      · exact .inl h
      · exact .inr ⟨u, List.mem_cons_of_mem t hu, h⟩

theorem mem_intercalate_of_mem {sep t : Text} {ts : List Text} {c : Char} (ht : t ∈ ts)
    (hc : c ∈ t) : c ∈ sep.intercalate ts := by
  cases ts with
  | nil => cases ht
  | cons u ts =>
    rw [intercalate_cons, List.mem_append, List.mem_flatMap]
    rcases List.mem_cons.1 ht with rfl | ht
    · exact .inl hc
    · exact .inr ⟨t, ht, List.mem_append_right sep hc⟩

end Text

namespace Macro

/-- The group with a number, its values with `sep` between them, or nothing where there is no such
group. Without digits the number is 0. -/
def numbered (groups : List (List Text)) (sep digits : Text) : Text :=
  sep.intercalate (groups[Nat.ofDigitChars 10 digits 0]?.getD [])

/-- A text with groups in the place of all percent signs and the digits behind each of them. -/
def substitute (groups : List (List Text)) (sep body : Text) : Text :=
  match body.splitOn '%' with
  | [] => []
  | first :: rest => first ++ rest.flatMap fun t =>
      numbered groups sep (t.takeWhile Char.isDigit) ++ t.dropWhile Char.isDigit

variable {call : Call} {sep : Text}

/-- The groups that a number of 64 bits can number. -/
theorem insertion_eq (call : Call) (sep digits : Text) :
    insertion call sep digits = numbered (call.groups.take UInt64.size) sep digits := by
  have hnumber : digits.foldl (fun n c => n * 10 + (c.toNat - '0'.toNat)) 0 =
      Nat.ofDigitChars 10 digits 0 := by
    simp only [Nat.ofDigitChars, Nat.mul_comm]
  simp only [insertion, placeholder?, hnumber, numbered, List.getElem?_take]
  split
  · next i hi =>
    split at hi
    · next hlt =>
      obtain rfl := Option.some.inj hi
      unfold Call.joined Call.group?
      rw [if_pos hlt]
      cases call.groups[Nat.ofDigitChars 10 digits 0]? <;> simp
    · cases hi
  · next hi =>
    split at hi
    · cases hi
    · next hlt => simp [if_neg hlt]

theorem isDigit_of_takeWhile {t : Text} : ∀ c ∈ t.takeWhile Char.isDigit, c.isDigit = true :=
  List.all_eq_true.1 List.all_takeWhile

theorem not_isDigit_of_dropWhile (t : Text) :
    ∀ c ∈ (t.dropWhile Char.isDigit).head?, c.isDigit = false := by
  intro c hc
  have := List.head?_dropWhile_not Char.isDigit t
  rw [hc] at this
  simpa using this

theorem substitute_percent (groups : List (List Text)) (sep rest : Text) :
    substitute groups sep ('%' :: rest) =
      numbered groups sep (rest.takeWhile Char.isDigit) ++
        substitute groups sep (rest.dropWhile Char.isDigit) := by
  let digits := rest.takeWhile Char.isDigit
  let u := rest.dropWhile Char.isDigit
  have hrest : rest = digits ++ u := (List.takeWhile_append_dropWhile).symm
  have hpercent : '%' ∉ digits := fun h => absurd (isDigit_of_takeWhile _ h) (by decide)
  obtain ⟨first, more, hu⟩ := List.exists_cons_of_ne_nil (List.splitOn_ne_nil '%' u)
  have hsplit : ('%' :: rest).splitOn '%' = [] :: (digits ++ first) :: more := by
    rw [List.splitOn_cons_eq_if_modifyHead, if_pos (by simp), hrest,
      Text.splitOn_append hpercent, hu]
    rfl
  -- behind the digits comes no other digit, also before the next percent sign
  have hfirst : ∀ c ∈ first.head?, c.isDigit = false := by
    intro c hc
    obtain ⟨more, hmore⟩ := Text.prefix_of_splitOn hu
    refine not_isDigit_of_dropWhile rest c ?_
    show c ∈ u.head?
    rw [← hmore, List.head?_append]
    simp [Option.mem_def.1 hc]
  obtain ⟨htake, hdrop⟩ := Text.takeWhile_run (t := digits) isDigit_of_takeWhile hfirst
  show substitute groups sep ('%' :: rest) = numbered groups sep digits ++ substitute groups sep u
  simp [substitute, hsplit, hu, htake, hdrop]

theorem substitute_cons (groups : List (List Text)) (sep : Text) {c : Char} (hc : c ≠ '%')
    (rest : Text) : substitute groups sep (c :: rest) = c :: substitute groups sep rest := by
  obtain ⟨first, more, hrest⟩ := List.exists_cons_of_ne_nil (List.splitOn_ne_nil '%' rest)
  have hsplit : (c :: rest).splitOn '%' = (c :: first) :: more := by
    rw [List.splitOn_cons_eq_if_modifyHead, if_neg (by simpa using hc), hrest]
    rfl
  simp [substitute, hsplit, hrest]

/-- To fill a text from the left is to put groups in the place of all of its percent signs. -/
theorem fill_eq (call : Call) (sep t : Text) :
    fill call sep t = substitute (call.groups.take UInt64.size) sep t := by
  fun_induction fill call sep t with
  | case1 => rfl
  | case2 rest ih => rw [substitute_percent, insertion_eq, ih]
  | case3 c rest hc ih => rw [substitute_cons _ _ hc, ih]

/-- Where no digits begin, a text may be filled in parts. -/
theorem fill_append (call : Call) (sep : Text) {t u : Text}
    (hu : ∀ c ∈ u.head?, c.isDigit = false) :
    fill call sep (t ++ u) = fill call sep t ++ fill call sep u := by
  fun_induction fill call sep t with
  | case1 => rfl
  | case2 rest ih =>
    rw [List.cons_append, fill, if_pos rfl, Text.takeWhile_append_stop rest hu,
      Text.dropWhile_append_stop rest hu, ih, List.append_assoc]
  | case3 c rest hc ih => rw [List.cons_append, fill, if_neg hc, ih, List.cons_append]

/-- A text without percent signs is not touched. -/
theorem fill_plain_append (call : Call) (sep : Text) {t : Text} (ht : '%' ∉ t) (u : Text) :
    fill call sep (t ++ u) = t ++ fill call sep u := by
  induction t with
  | nil => rfl
  | cons c t ih =>
    rw [List.mem_cons, not_or] at ht
    rw [List.cons_append, fill, if_neg (Ne.symm ht.1), ih ht.2, List.cons_append]

/-- What is put in comes out of the groups, or stands between their values. -/
theorem mem_fill {t : Text} {c : Char} (h : c ∈ fill call sep t) :
    c ∈ t ∨ c ∈ sep ∨ ∃ values ∈ call.groups, ∃ v ∈ values, c ∈ v := by
  fun_induction fill call sep t with
  | case1 => cases h
  | case2 rest ih =>
    rcases List.mem_append.1 h with h | h
    · unfold insertion Call.joined Call.group? at h
      split at h
      · split at h
        · next values hvalues =>
          rcases Text.mem_intercalate h with h | h
          · exact .inr (.inl h)
          · exact .inr (.inr ⟨values, List.mem_of_getElem? hvalues, h⟩)
        · cases h
      · cases h
    · exact (ih h).imp_left fun h =>
        List.mem_cons_of_mem _ ((List.dropWhile_sublist _).subset h)
  | case3 x rest hx ih =>
    rcases List.mem_cons.1 h with rfl | h
    · exact .inl List.mem_cons_self
    · exact (ih h).imp_left (List.mem_cons_of_mem x)

/-- No digits begin behind the first value that pieces make, and what is there may be filled value
by value. -/
theorem fill_pieces (call : Call) (sep : Text) (ps : List Piece) :
    let g := Groups.ofPieces ps
    (∀ c ∈ (g.behind standard id).head?, c.isDigit = false) ∧
      fill call sep (g.behind standard id) = g.behind standard (fill call sep) := by
  induction ps with
  | nil => simp [Groups.ofPieces, Groups.behind, fill]
  | cons p ps ih =>
    cases p with
    | kept t => exact ih
    | cut level =>
      obtain ⟨hdigit, hfill⟩ := ih
      have hplain : '%' ∉ standard.sepOf level := by cases level <;> decide
      simp only [Groups.behind_cut, id_eq]
      refine ⟨?_, ?_⟩
      · intro c hc
        cases level with
        | group =>
          obtain rfl : ':' = c := Option.some.inj hc
          decide
        | value =>
          obtain rfl : '|' = c := Option.some.inj hc
          decide
      · rw [fill_plain_append call sep hplain, ← hfill, ← fill_append call sep hdigit]

/-- A body that is split into groups of values is filled like the whole body. -/
theorem expand_templateGroups (call : Call) (body : Text) :
    Macro.expand ⟨templateGroups standard body, .body⟩ standard call =
      fill call standard.subSep body := by
  let ps := topLevelPieces standard (.ofDelimiters standard) body
  let g := Groups.ofPieces ps
  obtain ⟨hdigit, hfill⟩ := fill_pieces call standard.subSep ps
  have hjoin : g.value ++ g.behind standard id = body := by
    have hparts := Groups.join_toList standard id g
    simp only [List.map_id_fun', List.map_id_fun, id_eq] at hparts
    exact hparts.symm.trans (join_templateGroups standard body)
  show Groups.join _ _ (g.toList.map _) = _
  rw [Groups.join_toList, ← hfill, ← fill_append _ _ hdigit, hjoin]

/-- One pass over a text from the left. A percent sign and all digits right behind it give way to
the group that they number, and the pass goes on behind them; every other character is kept. -/
inductive Sweeps (groups : List (List Text)) (sep : Text) : Text → Text → Prop
  | done : Sweeps groups sep [] []
  | keep {c : Char} {t u : Text} (plain : c ≠ '%') (more : Sweeps groups sep t u) :
    Sweeps groups sep (c :: t) (c :: u)
  | replace {digits t u : Text} (digit : ∀ c ∈ digits, c.isDigit = true)
    (maximal : ∀ c ∈ t.head?, c.isDigit = false) (more : Sweeps groups sep t u) :
    Sweeps groups sep ('%' :: (digits ++ t)) (numbered groups sep digits ++ u)

/-- The pass goes through every text, and in one way. -/
theorem sweeps_iff {call : Call} {sep t u : Text} :
    Sweeps (call.groups.take UInt64.size) sep t u ↔ fill call sep t = u := by
  constructor
  · intro h
    induction h with
    | done => rw [fill]
    | keep plain _ ih => rw [fill, if_neg plain, ih]
    | replace digit maximal _ ih =>
      obtain ⟨htake, hdrop⟩ := Text.takeWhile_run digit maximal
      rw [fill, if_pos rfl, htake, hdrop, insertion_eq, ih]
  · rintro rfl
    fun_induction fill call sep t with
    | case1 => exact .done
    | case2 rest ih =>
      have hsweep := Sweeps.replace (isDigit_of_takeWhile (t := rest))
        (not_isDigit_of_dropWhile rest) ih
      rwa [List.takeWhile_append_dropWhile, ← insertion_eq] at hsweep
    | case3 c rest hc ih => exact .keep hc ih

/-- The body of a defined filter, however it is split into groups and values, is filled in one pass
over the whole body. A number that does not fit into 64 bits does what any number without a group
does, and the tag around a filled body changes nothing in it. -/
theorem expand_sweeps {call : Call} (hgroups : call.groups.length < UInt64.size) (body : Text) :
    (∀ u, Sweeps call.groups standard.subSep body u ↔
      Macro.expand ⟨templateGroups standard body, .body⟩ standard call = u) ∧
    Macro.expand ⟨templateGroups standard body, .tag⟩ standard call =
      standard.wrap (Macro.expand ⟨templateGroups standard body, .body⟩ standard call) ∧
    ∀ large absent, UInt64.size ≤ Nat.ofDigitChars 10 large 0 →
      call.group? (Nat.ofDigitChars 10 absent 0) = none →
        insertion call standard.subSep large = insertion call standard.subSep absent := by
  have hall : call.groups.take UInt64.size = call.groups :=
    List.take_of_length_le (Nat.le_of_lt hgroups)
  refine ⟨fun u => ?_, rfl, fun large absent hlarge habsent => ?_⟩
  · rw [expand_templateGroups, ← sweeps_iff, hall]
  · have hnone : call.groups[Nat.ofDigitChars 10 large 0]? = none :=
      List.getElem?_eq_none (by omega)
    have habsent : call.groups[Nat.ofDigitChars 10 absent 0]? = none := habsent
    rw [insertion_eq, insertion_eq, hall, numbered, numbered, hnone, habsent]

/-- Percent signs next to separators and in a nested tag, one put in, and a number that is too
large. -/
theorem expand_sweeps_nested :
    let call : Call := ⟨"m".toList, [["%1".toList], ["b".toList, "c".toList]]⟩
    let body := "%1::[[a::%01||%]]||%99999999999999999999%".toList
    let filled := "b||c::[[a::b||c||%1]]||%1".toList
    call.groups.length < UInt64.size ∧ Sweeps call.groups standard.subSep body filled ∧
      Macro.expand ⟨templateGroups standard body, .tag⟩ standard call = standard.wrap filled := by
  intro call body filled
  have hgroups : call.groups.length < UInt64.size := by decide
  obtain ⟨hsweeps, htag, -⟩ := expand_sweeps hgroups body
  have hbody : Macro.expand ⟨templateGroups standard body, .body⟩ standard call = filled := by
    decide +kernel
  exact ⟨hgroups, (hsweeps filled).2 hbody, by rw [htag, hbody]⟩

end Macro

theorem mem_of_mem_templateGroups {d : Delimiters} {t v : Text} {values : List Text} {c : Char}
    (hvalues : values ∈ templateGroups d t) (hv : v ∈ values) (hc : c ∈ v) : c ∈ t := by
  rw [← join_templateGroups d t]
  exact Text.mem_intercalate_of_mem (List.mem_map_of_mem hvalues)
    (Text.mem_intercalate_of_mem hv hc)

end TagMarkup
