import SS16.Proofs.Layout.Acceptance

/-!
# SS16.Proofs.Layout.Sightings — in which order a table lists its entries

An entry comes to the end of the table when its name, or its section, is first sighted, and nothing
that later steps do to it moves it.  So a table lists the sightings of the steps, each one where it
stands first.  Main statements: `Layout.Lists.takes` (what a run makes of the list) and
`Layout.Takes.lists_lines` (the list of lines, read off their text).
-/

namespace SS16

/-! ### Lists without repetitions -/

namespace Sightings

variable {xs : List String} {x : String}

theorem eraseDups_concat_of_mem (h : x ∈ xs) : (xs ++ [x]).eraseDups = xs.eraseDups := by
  rw [List.eraseDups_append, List.cons_removeAll, if_neg (by simpa using h)]
  exact List.append_nil _

theorem eraseDups_concat_of_not_mem (h : x ∉ xs) :
    (xs ++ [x]).eraseDups = xs.eraseDups ++ [x] := by
  rw [List.eraseDups_append, List.cons_removeAll, if_pos (by simpa using h)]
  rfl

theorem filter_eraseDups (p : String → Bool) (xs : List String) :
    xs.eraseDups.filter p = (xs.filter p).eraseDups := by
  induction xs using List.reverseRecOn with
  | nil => rfl
  | append_singleton xs x ih =>
    rw [List.filter_append, List.filter_singleton]
    by_cases hx : x ∈ xs
    · rw [eraseDups_concat_of_mem hx, ih]
      cases hp : p x with
      | true => exact (eraseDups_concat_of_mem (List.mem_filter.2 ⟨hx, hp⟩)).symm
      | false => exact congrArg _ (List.append_nil _).symm
    · rw [eraseDups_concat_of_not_mem hx, List.filter_append, List.filter_singleton, ih]
      cases hp : p x with
      | true =>
        exact (eraseDups_concat_of_not_mem fun hmem => hx (List.mem_filter.1 hmem).1).symm
      | false =>
        show (xs.filter p).eraseDups ++ [] = (xs.filter p ++ []).eraseDups
        rw [List.append_nil, List.append_nil]

theorem find?_eraseDups (p : String → Bool) (xs : List String) :
    xs.eraseDups.find? p = xs.find? p := by
  rw [← List.head?_filter, ← List.head?_filter, filter_eraseDups]
  cases xs.filter p with
  | nil => rfl
  | cons x xs => rw [List.eraseDups_cons]; rfl

end Sightings

/-! ### Steps -/

/-- The name under which a step sights an entry, that of a section too. -/
def Step.sights? : Step → Option String
  | .enter k => some k.name
  | .set n | .use n | .share n => some n
  | .require _ | .advance _ | .align _ | .refuse _ => none

theorem Step.sights?_of_name? {s : Step} {n : String} (h : s.name? = some n) :
    s.sights? = some n := by
  cases s <;> first | exact h | cases h

theorem SymbolTable.map_name_insert_of_some {t : SymbolTable} {s r : Symbol}
    (h : t.get? s.name = some r) :
    (t.insert s).toList.map Symbol.name = t.toList.map Symbol.name := by
  rw [toList_insert_of_some h, List.map_map]
  refine List.map_congr_left fun x _ => ?_
  show (if x.name = s.name then s else x : Symbol).name = x.name
  split_ifs with hx
  · exact hx.symm
  · rfl

namespace Layout

/-- The table lists these sightings, each one where it stands first. -/
def Lists (l : Layout) (sightings : List String) : Prop :=
  l.symbols.toList.map Symbol.name = sightings.eraseDups

variable {l l' : Layout} {sightings : List String}

theorem lists_start : (start .empty).Lists [] := rfl

theorem Lists.contains_iff (h : l.Lists sightings) {n : String} :
    l.symbols.contains n ↔ n ∈ sightings := by
  rw [SymbolTable.contains_iff, ← List.mem_eraseDups, ← h, List.mem_map]
  exact exists_congr fun s => SymbolTable.get?_eq_some_iff

/-- An entry that a step brings in comes behind all others, and one that is there stays in its
place. -/
theorem Lists.take {s : Step} (h : l.Lists sightings) (hs : l.refusal? s = none) :
    (l.take s).Lists (sightings ++ s.sights?.toList) := by
  have hold : ∀ {n}, s.sights? = some n → l.symbols.contains n →
      (sightings ++ s.sights?.toList).eraseDups = sightings.eraseDups := fun hn hc => by
    rw [hn]
    exact Sightings.eraseDups_concat_of_mem (h.contains_iff.1 hc)
  have hnew : ∀ {r : Symbol}, s.sights? = some r.name → l.symbols.get? r.name = none →
      (l.symbols.insert r).toList.map Symbol.name =
        (sightings ++ s.sights?.toList).eraseDups := fun {r} hn hr => by
    have hmem : r.name ∉ sightings := fun hmem => by
      rw [← h.contains_iff, SymbolTable.contains_iff, hr] at hmem
      obtain ⟨_, hmem⟩ := hmem
      cases hmem
    rw [hn, Option.toList_some, Sightings.eraseDups_concat_of_not_mem hmem,
      SymbolTable.toList_insert_of_none hr, List.map_append, h]
    rfl
  have hchange := take_change hs
  unfold Lists
  generalize (l.take s).symbols = t at hchange ⊢
  generalize (l.take s).next = count at hchange
  cases hchange with
  | keep hn he =>
    cases hsights : s.sights? with
    | none =>
      rw [Option.toList_none, List.append_nil]
      exact h
    | some n =>
      have hname : s.name? = some n := by
        cases s with
        | enter k => exact absurd rfl (he k)
        | _ => exact hsights
      rw [← hsights, hold hsights (hn n hname)]
      exact h
  | complete r q hn hr hq =>
    rw [hold (Step.sights?_of_name? hn) (SymbolTable.contains_iff.2 ⟨r, hr⟩),
      SymbolTable.map_name_insert_of_some (hq.name ▸ hr)]
    exact h
  | enter k he hk =>
    subst he
    exact hnew rfl hk
  | add r hn hr => exact hnew (Step.sights?_of_name? hn) hr

theorem Lists.takes {xs : List (Nat × Step)} (h : l.Lists sightings) (hx : l.Takes xs l') :
    l'.Lists (sightings ++ (xs.map Prod.snd).filterMap Step.sights?) := by
  induction xs generalizing l sightings with
  | nil =>
    obtain rfl := takes_nil.1 hx
    rw [List.map_nil, List.filterMap_nil, List.append_nil]
    exact h
  | cons x xs ih =>
    obtain ⟨hs, hx⟩ := takes_cons.1 hx
    have hrest := ih (h.take hs) hx
    rw [List.append_assoc] at hrest
    rw [List.map_cons, List.filterMap_cons]
    cases hsights : x.2.sights? with
    | none =>
      rw [hsights] at hrest
      exact hrest
    | some n =>
      rw [hsights] at hrest
      exact hrest

end Layout

/-! ### Lines -/

theorem Step.filterMap_sights?_map {f : String → Step} (hf : ∀ n, (f n).sights? = some n)
    (names : List String) : (names.map f).filterMap Step.sights? = names := by
  rw [List.filterMap_map, show Step.sights? ∘ f = some from funext hf, List.filterMap_some]

theorem Statement.filterMap_sights?_steps {s : Statement} (h : s.Readable) :
    s.steps.filterMap Step.sights? =
      (s.opens?.map Section.name).toList ++ s.uses ++ s.exports := by
  have hrequire : (if s.occupies then [Step.require s.heading] else []).filterMap Step.sights? =
      [] := by
    split_ifs <;> rfl
  have hmotion : s.motion.toList.filterMap Step.sights? =
      (s.opens?.map Section.name).toList := by
    cases s <;> rfl
  rw [steps_eq h, still, List.filterMap_append, List.filterMap_append, List.filterMap_append,
    hrequire, hmotion, Step.filterMap_sights?_map fun _ => rfl,
    Step.filterMap_sights?_map fun _ => rfl]
  -- a statement that opens a section neither uses nor exports names
  cases s <;> simp [opens?, uses, exports]

namespace Line

/-- The names under which a line sights entries: those of its labels, then that of the section that
it opens or those that it uses or exports. -/
def sightings (line : Line) : List String :=
  line.labels ++ (line.opens?.map Section.name).toList ++ line.uses ++ line.exports

theorem filterMap_sights?_steps {line : Line} (h : line.Readable) :
    line.steps.filterMap Step.sights? = line.sightings := by
  unfold steps sightings opens? uses exports
  rw [List.filterMap_append, Step.filterMap_sights?_map fun _ => rfl]
  cases hs : line.statement with
  | none => simp
  | some s =>
    show _ ++ s.steps.filterMap Step.sights? = _
    rw [Statement.filterMap_sights?_steps (h s hs)]
    simp

/-- Without those of sections, the names that a line sights are those that it sets, uses or
exports. -/
theorem filter_isValid_sightings {line : Line} (h : ∀ n ∈ line.names, Identifier.isValid n) :
    line.sightings.filter Identifier.isValid = line.names := by
  have hall : ∀ {names : List String}, names ⊆ line.names →
      names.filter Identifier.isValid = names := fun hsub =>
    List.filter_eq_self.2 fun n hn => h n (hsub hn)
  have hsections : (line.opens?.map Section.name).toList.filter Identifier.isValid = [] := by
    cases line.opens? with
    | none => rfl
    | some k => exact List.filter_eq_nil_iff.2 fun n hn => by simp_all [Section.isValid_name]
  unfold sightings
  rw [List.filter_append, List.filter_append, List.filter_append, hsections, List.append_nil,
    hall, hall, hall]
  · rfl
  · exact List.subset_append_right _ _
  · exact List.subset_append_of_subset_left _ (List.subset_append_right _ _)
  · exact List.subset_append_of_subset_left _ (List.subset_append_left _ _)

theorem filter_isValid_flatMap {lines : List Line}
    (h : ∀ line ∈ lines, ∀ n ∈ line.names, Identifier.isValid n) :
    (lines.flatMap sightings).filter Identifier.isValid = lines.flatMap names := by
  rw [List.filter_flatMap]
  exact List.flatMap_congr fun line hline => filter_isValid_sightings (h line hline)

end Line

namespace Reads

variable {rows : List String} {row : Nat} {lines : List Line} {line : Line} {n : String}

theorem exists_parse (h : Reads row rows lines) (hline : line ∈ lines) :
    ∃ i raw, Line.parse i raw = .ok line := by
  induction h with
  | nil => cases hline
  | stop _ hp => exact ⟨_, _, List.mem_singleton.1 hline ▸ hp⟩
  | cons hp _ _ ih =>
    rcases List.mem_cons.1 hline with rfl | hline
    · exact ⟨_, _, hp⟩
    · exact ih hline

theorem isValid_of_mem_labels (h : Reads row rows lines) :
    ∀ line ∈ lines, ∀ n ∈ line.labels, Identifier.isValid n := by
  intro line hline n hn
  obtain ⟨i, raw, hp⟩ := h.exists_parse hline
  exact Line.isValid_of_mem_labels hp hn

theorem isValid_of_mem_names (h : Reads row rows lines)
    (hr : ∀ line ∈ lines, line.Readable) :
    ∀ line ∈ lines, ∀ n ∈ line.names, Identifier.isValid n := by
  intro line hline n hn
  obtain ⟨i, raw, hp⟩ := h.exists_parse hline
  obtain ⟨s, hs, hsn⟩ := List.mem_filterMap.1 ((Line.mem_names_iff (hr line hline)).2 hn)
  exact Line.isValid_of_mem_steps hp hs hsn

end Reads

theorem Layout.Takes.lists_lines {lines : List Line} {l : Layout}
    (h : (start .empty).Takes (lines.flatMap Line.located) l)
    (hr : ∀ line ∈ lines, line.Readable) : l.Lists (lines.flatMap Line.sightings) := by
  have hlists := lists_start.takes h
  have hsights : (lines.flatMap Line.steps).filterMap Step.sights? =
      lines.flatMap Line.sightings := by
    rw [List.filterMap_flatMap]
    exact List.flatMap_congr fun line hline => Line.filterMap_sights?_steps (hr line hline)
  rw [Line.map_snd_flatMap_located, hsights, List.nil_append] at hlists
  exact hlists

end SS16
