import SS16.Proofs.Layout.Sightings
import SS16.Proofs.Layout.Stops
import SS16.Proofs.Source.TextFaults
import Mathlib.Data.List.Find

/-!
# SS16.Proofs.UndeclaredNames — which name is reported as undefined

When all steps of a source are taken, the table is searched for an entry without a meaning.  Entries
stand in the order of first sighting, so the search finds the name that is used first among those
that no line declares, and it is blamed on the row of this use.  Main statements:
`Layout.Takes.map_name_unresolved?` and `Program.layout_eq_undefinedSymbol_iff`.
-/

namespace SS16

/-! ### Uses in lines -/

namespace Line

/-- A line, counted from zero, names `n` at a place among the names that it uses. -/
def UsedAt (lines : List Line) (n : String) (i column : Nat) : Prop :=
  ∃ line, lines[i]? = some line ∧ line.uses[column]? = some n

/-- The use of a name that no other use of it comes before. -/
structure FirstUse (lines : List Line) (n : String) (i column : Nat) : Prop where
  used : UsedAt lines n i column
  first : ∀ j c, UsedAt lines n j c → i < j ∨ i = j ∧ column ≤ c

/-- No line sets the name by a label, and none exports it. -/
def Undeclared (lines : List Line) (n : String) : Prop :=
  n ∉ lines.flatMap labels ∧ n ∉ lines.flatMap exports

/-- The use of an undeclared name that no other use of an undeclared name comes before. -/
structure FirstUndeclared (lines : List Line) (n : String) (i column : Nat) : Prop where
  undeclared : Undeclared lines n
  firstUse : FirstUse lines n i column
  /-- Every other undeclared name is first used in a later line, or further right. -/
  others : ∀ m, m ≠ n → Undeclared lines m → ∀ j c, FirstUse lines m j c →
    i < j ∨ i = j ∧ column < c

variable {lines : List Line} {n : String} {i column : Nat}

instance : Decidable (Undeclared lines n) := inferInstanceAs (Decidable (_ ∧ _))

theorem UsedAt.eq (h : UsedAt lines n i column) {m : String} (h' : UsedAt lines m i column) :
    m = n := by
  obtain ⟨line, hline, hn⟩ := h
  obtain ⟨other, hother, hm⟩ := h'
  obtain rfl := Option.some.inj (hline.symm.trans hother)
  exact Option.some.inj (hm.symm.trans hn)

theorem UsedAt.mem (h : UsedAt lines n i column) : n ∈ lines.flatMap uses := by
  obtain ⟨line, hline, hn⟩ := h
  exact List.mem_flatMap.2 ⟨line, List.mem_of_getElem? hline, List.mem_of_getElem? hn⟩

/-- The first name of a kind among all that lines use comes before every other one of the kind. -/
theorem exists_firstUse_of_find? {p : String → Bool}
    (h : (lines.flatMap uses).find? p = some n) :
    ∃ i column, FirstUse lines n i column ∧
      ∀ m, m ≠ n → p m → ∀ j c, UsedAt lines m j c → i < j ∨ i = j ∧ column < c := by
  rw [List.find?_flatMap, List.findSome?_eq_some_iff] at h
  obtain ⟨before, line, after, rfl, hline, hbefore⟩ := h
  obtain ⟨hn, left, right, huses, hleft⟩ := List.find?_eq_some_iff_append.1 hline
  have hat : UsedAt (before ++ line :: after) n before.length left.length :=
    ⟨line, by simp, by simp [huses]⟩
  -- a use in front of this one would be among the lines before or on the left
  have hfirst : ∀ m, p m → ∀ j c, UsedAt (before ++ line :: after) m j c →
      before.length < j ∨ before.length = j ∧ left.length ≤ c := by
    rintro m hm j c ⟨other, hother, hmc⟩
    rcases Nat.lt_trichotomy before.length j with hj | rfl | hj
    · exact .inl hj
    · refine .inr ⟨rfl, ?_⟩
      rw [List.getElem?_append_right (Nat.le_refl _), Nat.sub_self] at hother
      obtain rfl := Option.some.inj hother
      by_contra hc
      rw [huses, List.getElem?_append_left (by omega)] at hmc
      simpa [hm] using hleft m (List.mem_of_getElem? hmc)
    · rw [List.getElem?_append_left hj] at hother
      have hnone := List.find?_eq_none.1 (hbefore other (List.mem_of_getElem? hother))
      exact absurd hm (hnone m (List.mem_of_getElem? hmc))
  refine ⟨before.length, left.length, ⟨hat, hfirst n hn⟩, fun m hne hm j c hmc => ?_⟩
  rcases hfirst m hm j c hmc with hj | ⟨rfl, hc⟩
  · exact .inl hj
  · refine .inr ⟨rfl, Nat.lt_of_le_of_ne hc ?_⟩
    rintro rfl
    exact hne (hat.eq hmc)

theorem exists_firstUndeclared_of_find?
    (h : ((lines.flatMap uses).find? fun n => Undeclared lines n) = some n) :
    ∃ i column, FirstUndeclared lines n i column := by
  obtain ⟨i, column, hfirst, hothers⟩ := exists_firstUse_of_find? h
  refine ⟨i, column, of_decide_eq_true (List.find?_some (p := fun n => Undeclared lines n) h),
    hfirst, fun m hm hu j c hmc => ?_⟩
  exact hothers m hm (decide_eq_true hu) j c hmc.used

theorem FirstUndeclared.find?_eq (h : FirstUndeclared lines n i column) :
    ((lines.flatMap uses).find? fun n => Undeclared lines n) = some n := by
  obtain ⟨m, hm⟩ := Option.isSome_iff_exists.1
    (List.find?_isSome.2 ⟨n, h.firstUse.used.mem, decide_eq_true h.undeclared⟩ :
      ((lines.flatMap uses).find? fun n => Undeclared lines n).isSome)
  obtain ⟨j, c, h'⟩ := exists_firstUndeclared_of_find? hm
  have hmn : m = n := by
    by_contra hne
    have := h.others m hne h'.undeclared j c h'.firstUse
    have := h'.others n (Ne.symm hne) h.undeclared i column h.firstUse
    omega
  rw [hm, hmn]

/-- Labels and exports are declared, so the first undeclared name is among those that are used. -/
theorem find?_undeclared_names (lines : List Line) :
    ((lines.flatMap names).find? fun n => Undeclared lines n) =
      (lines.flatMap uses).find? fun n => Undeclared lines n := by
  rw [← List.head?_filter, ← List.head?_filter, List.filter_flatMap, List.filter_flatMap]
  congr 1
  refine List.flatMap_congr fun line hline => ?_
  have hlabels : line.labels.filter (fun n => decide (Undeclared lines n)) = [] :=
    List.filter_eq_nil_iff.2 fun n hn hu =>
      (of_decide_eq_true hu).1 (List.mem_flatMap.2 ⟨line, hline, hn⟩)
  have hexports : line.exports.filter (fun n => decide (Undeclared lines n)) = [] :=
    List.filter_eq_nil_iff.2 fun n hn hu =>
      (of_decide_eq_true hu).2 (List.mem_flatMap.2 ⟨line, hline, hn⟩)
  unfold names
  rw [List.filter_append, List.filter_append, hlabels, hexports, List.append_nil]
  rfl

end Line

theorem Reads.row_eq {row : Nat} {rows : List String} {lines : List Line}
    (h : Reads row rows lines) {i : Nat} {line : Line} (hline : lines[i]? = some line) :
    line.row = row + i := by
  induction h generalizing i with
  | nil => cases hline
  | stop _ hp =>
    rw [List.getElem?_singleton] at hline
    split_ifs at hline with hi
    obtain rfl := Option.some.inj hline
    rw [hi]
    exact Line.row_of_parse hp
  | cons hp _ _ ih =>
    cases i with
    | zero =>
      obtain rfl := Option.some.inj hline
      exact Line.row_of_parse hp
    | succ i =>
      rw [ih hline]
      omega

/-! ### The search for a name without a meaning -/

namespace Layout

variable {lines : List Line} {l : Layout}

theorem Takes.map_name_unresolved? (h : (start .empty).Takes (lines.flatMap Line.located) l)
    {row : Nat} {rows : List String} (hread : Reads row rows lines) :
    (unresolved? l.symbols).map Symbol.name =
      (lines.flatMap Line.uses).find? fun n => Line.Undeclared lines n := by
  have hlabels := hread.isValid_of_mem_labels
  have hr := (h.accepted hlabels).readable
  have hnames := hread.isValid_of_mem_names hr
  have hw : l.WellFormed := wellFormed_start.takes h (isValid_of_mem_located hlabels)
  -- an entry has no meaning if it belongs to a name that no line declares
  have hentry : ∀ s ∈ l.symbols.toList, (!s.isDefined && !s.isGlobal) =
      (decide (Line.Undeclared lines s.name) && Identifier.isValid s.name) := by
    intro s hs
    rcases hw.named s hs with hv | ⟨k, rfl⟩
    · rcases h.entry hlabels hv with ⟨hnone, -⟩ | ⟨r, hget, -, hdefined, hglobal, -⟩
      · rw [SymbolTable.get?_of_mem hs] at hnone
        cases hnone
      · obtain rfl := Option.some.inj ((SymbolTable.get?_of_mem hs).symm.trans hget)
        rw [Bool.eq_iff_iff]
        simp [hv, Line.Undeclared, ← hdefined, ← hglobal]
    · have hk : Identifier.isValid (Symbol.ofSection k).name = false := k.isValid_name
      rw [hk, Bool.and_false]
      rfl
  have hfind : (unresolved? l.symbols).map Symbol.name = (l.symbols.toList.map Symbol.name).find?
      fun n => decide (Line.Undeclared lines n) && Identifier.isValid n := by
    rw [List.find?_map]
    exact congrArg (Option.map Symbol.name) (List.find?_congr hentry)
  rw [hfind, h.lists_lines hr, Sightings.find?_eraseDups, ← Line.find?_undeclared_names,
    ← Line.filter_isValid_flatMap hnames, ← List.head?_filter, ← List.head?_filter,
    List.filter_filter]

theorem firstUse_lines {row : Nat} {rows : List String} (hread : Reads row rows lines)
    (hr : ∀ line ∈ lines, line.Readable) {n : String} {i column : Nat}
    (h : Line.FirstUse lines n i column) :
    firstUse (lines.flatMap Line.located) n = some (row + i) := by
  have hmem : Step.use n ∈ (lines.flatMap Line.located).map Prod.snd := by
    rw [Line.map_snd_flatMap_located]
    exact (Line.mem_use_flatMap hr).2 h.used.mem
  obtain ⟨y, hy, hyn⟩ := List.mem_map.1 hmem
  obtain ⟨x, hx⟩ := Option.isSome_iff_exists.1
    (List.find?_isSome.2 ⟨y, hy, decide_eq_true hyn⟩ :
      ((lines.flatMap Line.located).find? fun x => x.2 = .use n).isSome)
  unfold firstUse
  rw [hx, Option.map_some]
  rw [List.find?_flatMap, List.findSome?_eq_some_iff] at hx
  obtain ⟨before, line, after, rfl, hline, hbefore⟩ := hx
  obtain ⟨hrow, hstep⟩ := Line.mem_located.1 (List.mem_of_find?_eq_some hline)
  rw [show x.2 = .use n by simpa using List.find?_some hline,
    Line.mem_use_steps (hr line (by simp))] at hstep
  obtain ⟨c, hc⟩ := List.getElem?_of_mem hstep
  have hat : (before ++ line :: after)[before.length]? = some line := by simp
  rw [hrow, hread.row_eq hat]
  -- the line of the first use is not one of those in front of this one
  rcases h.first before.length c ⟨line, hat, hc⟩ with hlt | ⟨rfl, -⟩
  · obtain ⟨other, hother, hn⟩ := h.used
    rw [List.getElem?_append_left hlt] at hother
    have hmem := List.mem_of_getElem? hother
    have huse : Step.use n ∈ other.steps :=
      (Line.mem_use_steps (hr other (List.mem_append_left _ hmem))).2 (List.mem_of_getElem? hn)
    have hnone := List.find?_eq_none.1 (hbefore other hmem) (other.row, .use n)
      (Line.mem_located.2 ⟨rfl, huse⟩)
    exact absurd (decide_eq_true rfl) hnone
  · rfl

theorem unresolvedFault_empty (xs : List (Nat × Step)) (s : Symbol) :
    unresolvedFault .empty xs s = ⟨firstUse xs s.name, .undefinedSymbol s.name⟩ := by
  have hempty : SymbolTable.empty.contains s.name = false := rfl
  unfold unresolvedFault
  rw [hempty]
  rfl

end Layout

/-! ### Sources -/

theorem Layout.ne_undefinedSymbol_of_refusal? {l : Layout} {s : Step} {f : Fault}
    (h : l.refusal? s = some f) (hs : ∀ g, s = .refuse g → g.Textual) (n : String) :
    f ≠ .undefinedSymbol n := by
  rintro rfl
  have hmove : ∀ move, l.moveRefusal? move ≠ some (.undefinedSymbol n) := by
    intro move hmove
    obtain ⟨p, -, hp⟩ := Option.bind_eq_some_iff.1 hmove
    split_ifs at hp
    cases Option.some.inj hp
  cases s with
  | refuse g =>
    obtain rfl := Option.some.inj h
    cases hs _ rfl with
    | statement hf => cases hf
  | advance k => exact hmove _ h
  | align k => exact hmove _ h
  | require what =>
    simp only [refusal?] at h
    split_ifs at h
    cases h
  | enter k =>
    simp only [refusal?] at h
    split_ifs at h
    cases h
  | set name =>
    simp only [refusal?] at h
    split_ifs at h <;> cases h
  | use name => cases h
  | share name => cases h

namespace Program

variable {source : String} {n : String}

theorem exists_of_layout_eq_undefinedSymbol {row : Option Nat}
    (h : ((ofSource source).layout .empty).sections = .error ⟨row, .undefinedSymbol n⟩) :
    ∃ l s, (Layout.start .empty).Takes (ofSource source).steps l ∧
      Layout.unresolved? l.symbols = some s ∧ s.name = n ∧
      row = Layout.firstUse (ofSource source).steps n := by
  rcases exists_of_layout_eq_error h with ⟨l, x, hx, g, hg, hf⟩ | ⟨l, s, ht, hu, hf⟩
  · have hfault : g = .undefinedSymbol n := (congrArg Located.fault hf).symm
    exact absurd hfault (Layout.ne_undefinedSymbol_of_refusal? hg
      (fun _ hs => textual_of_mem_steps hx hs) n)
  · rw [Layout.unresolvedFault_empty, Located.mk.injEq, Fault.undefinedSymbol.injEq] at hf
    obtain ⟨hrow, rfl⟩ := hf
    exact ⟨l, s, ht, hu, rfl, hrow⟩

/-- The diagnosis of an undefined name is exact.  A source is refused for the name `n` in a row
exactly if its rows read as lines that are accepted, up to the first one that ends the source, no
label and no export among them declares `n`, the row is the first one that uses `n`, and every other
name that is used without being declared is first used in a later row, or further right in this
one. -/
theorem layout_eq_undefinedSymbol_iff {row : Option Nat} :
    ((ofSource source).layout .empty).sections = .error ⟨row, .undefinedSymbol n⟩ ↔
      ∃ lines i column, Reads 0 (Text.rows source) lines ∧ Line.Accepted lines ∧
        Line.FirstUndeclared lines n i column ∧ row = some i := by
  constructor
  · intro h
    obtain ⟨l, s, ht, hu, rfl, hrow⟩ := exists_of_layout_eq_undefinedSymbol h
    obtain ⟨hlines, hnone⟩ := takes_steps_iff.1 ht
    have hread := reads_of_fault hnone
    have hacc := hlines.accepted hread.isValid_of_mem_labels
    have hfind := hlines.map_name_unresolved? hread
    rw [hu, Option.map_some] at hfind
    obtain ⟨i, column, hfirst⟩ := Line.exists_firstUndeclared_of_find? hfind.symm
    refine ⟨_, i, column, hread, hacc, hfirst, ?_⟩
    rw [hrow, steps_of_fault hnone,
      Layout.firstUse_lines hread hacc.readable hfirst.firstUse, Nat.zero_add]
  · rintro ⟨lines, i, column, hread, hacc, hfirst, rfl⟩
    obtain ⟨l, ht⟩ := (Layout.exists_takes_lines_iff hread.isValid_of_mem_labels).2 hacc
    have hname := (ht.map_name_unresolved? hread).trans hfirst.find?_eq
    obtain ⟨s, hu, rfl⟩ := Option.map_eq_some_iff.1 hname
    have hprogram : ofSource source = ⟨lines, none⟩ := ofRows_eq_iff.2 hread
    have hsteps : (ofSource source).steps = lines.flatMap Line.located := by
      rw [hprogram]
      exact steps_of_fault rfl
    rw [layout_eq_error_of_unresolved (hsteps ▸ ht) hu, Layout.unresolvedFault_empty, hsteps,
      Layout.firstUse_lines hread hacc.readable hfirst.firstUse, Nat.zero_add]

end Program

end SS16
