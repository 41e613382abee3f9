import SS16.Proofs.Layout.Admission
import SS16.Proofs.Layout.Program
import SS16.Proofs.Source.Declarations

/-!
# SS16.Proofs.Layout.Acceptance — which lines are laid out

What the first sweep asks of lines, said of the lines themselves: they can be read, they stand in
sections and fit there, and no section and no label comes twice (`Line.Accepted`).  Main statements:
`exists_takes_lines_iff`, `Program.exists_layout_iff` and `Takes.entry` (the entry of a name).
-/

namespace SS16

/-! ### The steps of a line -/

namespace Line

theorem opens?_of_stays {line : Line} {s : Step} (h : line.Stays s) : s.opens? = none := by
  cases h <;> rfl

theorem next_of_stays {line : Line} {s : Step} (h : line.Stays s) (here : Option Place) :
    s.next here = here := by
  cases h <;> rfl

theorem fits_of_stays {line : Line} {s : Step} (h : line.Stays s) (here : Option Place) :
    s.Fits here := by
  cases h <;> exact fun _ _ => rfl

/-- Whether a line has to stand in a section. -/
def NeedsPlace (line : Line) : Prop := line.labels ≠ [] ∨ line.occupies

theorem needsPlace_of_stays {line : Line} {s : Step} (h : line.Stays s) (hs : s.needsPlace) :
    line.NeedsPlace := by
  cases h with
  | set n hn => exact .inl (List.ne_nil_of_mem hn)
  | require what ho => exact .inr ho
  | _ => cases hs

theorem exists_needsPlace {line : Line} (h : line.NeedsPlace) : ∃ s ∈ line.still, s.needsPlace := by
  rcases h with hl | ho
  · obtain ⟨n, hn⟩ := List.exists_mem_of_ne_nil _ hl
    exact ⟨.set n, List.mem_append_left _ (List.mem_map_of_mem hn), rfl⟩
  · unfold occupies at ho
    cases hs : line.statement with
    | none => simp [hs] at ho
    | some s =>
      rw [hs] at ho
      refine ⟨.require s.heading, List.mem_append_right _ ?_, rfl⟩
      rw [hs]
      have ho : s.occupies := ho
      exact List.mem_append_left _ (List.mem_append_left _ (by simp [ho]))

def Fits (here : Option Place) (line : Line) : Prop :=
  ∀ t, line.motion = some t → t.Fits here

theorem foldl_next_still (line : Line) (here : Option Place) :
    line.still.foldl Step.next here = here :=
  Step.foldl_next_eq_self (fun _ hs here => next_of_stays (stays_of_mem_still hs) here) here

theorem next_eq {line : Line} (h : line.Readable) (here : Option Place) :
    line.next here = line.motion.elim here (Step.next here) := by
  unfold next
  rw [steps_eq h, List.foldl_append, foldl_next_still]
  cases line.motion <;> rfl

theorem isSome_foldl_next (lines : List Line) :
    (lines.foldl next none).isSome ↔ lines.filterMap opens? ≠ [] := by
  rw [foldl_next, Step.isSome_foldl_next, filterMap_opens?]

theorem map_snd_flatMap_located (lines : List Line) :
    (lines.flatMap located).map Prod.snd = lines.flatMap steps := by
  rw [List.map_flatMap]
  exact congrArg (fun f => lines.flatMap f) (funext map_snd_located)

/-- What the first sweep asks of lines. -/
structure Accepted (lines : List Line) : Prop where
  readable : ∀ line ∈ lines, line.Readable
  placed : Along (fun before line => line.NeedsPlace → before.filterMap opens? ≠ []) lines
  sections : (lines.filterMap opens?).Nodup
  labels : (lines.flatMap labels).Nodup
  fits : Along (fun before line => line.Fits (before.foldl next none)) lines

variable {lines : List Line}

theorem along_needsPlace_iff (h : ∀ line ∈ lines, line.Readable) :
    Along (fun before (s : Step) => s.needsPlace → before.filterMap Step.opens? ≠ [])
        (lines.flatMap steps) ↔
      Along (fun before line => line.NeedsPlace → before.filterMap opens? ≠ []) lines := by
  rw [along_flatMap]
  refine along_congr fun before line hline => ?_
  -- the steps of the line that need a section come before it opens one
  have hstill : ∀ xs : List Step, xs ⊆ line.still → xs.filterMap Step.opens? = [] := fun xs hxs =>
    List.filterMap_eq_nil_iff.2 fun s hs => opens?_of_stays (stays_of_mem_still (hxs hs))
  rw [steps_eq (h line hline), along_append]
  constructor
  · rintro ⟨hall, -⟩ hneed
    obtain ⟨s, hs, hsp⟩ := exists_needsPlace hneed
    obtain ⟨as, bs, hsplit⟩ := List.append_of_mem hs
    have has := hall as s bs hsplit hsp
    rwa [List.filterMap_append, filterMap_opens?, hstill as (hsplit ▸ List.subset_append_left _ _),
      List.append_nil] at has
  · refine fun hneed => ⟨?_, ?_⟩
    · rintro as s bs hsplit hsp
      have hs : line.Stays s := stays_of_mem_still (hsplit ▸ List.mem_append_right as List.mem_cons_self)
      rw [List.filterMap_append, filterMap_opens?]
      exact List.append_ne_nil_of_left_ne_nil (hneed (needsPlace_of_stays hs hsp)) _
    · rintro as s bs hsplit hsp
      have hs : line.Moves s := moves_of_motion
        (Option.mem_toList.1 (hsplit ▸ List.mem_append_right as List.mem_cons_self))
      cases hs <;> cases hsp

theorem along_fits_iff (h : ∀ line ∈ lines, line.Readable) :
    Along (fun before (s : Step) => s.Fits (before.foldl Step.next none)) (lines.flatMap steps) ↔
      Along (fun before line => line.Fits (before.foldl next none)) lines := by
  rw [along_flatMap]
  refine along_congr fun before line hline => ?_
  rw [steps_eq (h line hline), along_append, and_iff_right]
  · unfold Fits
    cases line.motion with
    | none => simp [along_nil]
    | some t =>
      rw [Option.toList_some, along_cons, and_iff_left along_nil, List.append_nil,
        List.foldl_append, ← foldl_next, foldl_next_still]
      simp
  · rintro as s bs hsplit
    exact fits_of_stays (stays_of_mem_still (hsplit ▸ List.mem_append_right as List.mem_cons_self)) _

theorem filterMap_set?_steps {line : Line} (h : line.Readable) :
    line.steps.filterMap Step.set? = line.labels := by
  have hmoves : line.motion.toList.filterMap Step.set? = [] := by
    refine List.filterMap_eq_nil_iff.2 fun s hs => ?_
    cases moves_of_motion (Option.mem_toList.1 hs) <;> rfl
  have hstatement : ((line.statement.map Statement.still).getD []).filterMap Step.set? = [] := by
    cases line.statement with
    | none => rfl
    | some s =>
      show s.still.filterMap Step.set? = []
      unfold Statement.still
      rw [List.filterMap_append, List.filterMap_append, List.filterMap_map, List.filterMap_map]
      split_ifs <;> simp [Function.comp_def, Step.set?]
  rw [steps_eq h, still, List.filterMap_append, List.filterMap_append, hmoves, hstatement,
    List.filterMap_map]
  simp [Function.comp_def, Step.set?]

theorem filterMap_set?_flatMap (h : ∀ line ∈ lines, line.Readable) :
    (lines.flatMap steps).filterMap Step.set? = lines.flatMap labels := by
  rw [List.filterMap_flatMap]
  exact List.flatMap_congr fun line hline => filterMap_set?_steps (h line hline)

theorem mem_set_flatMap (h : ∀ line ∈ lines, line.Readable) {n : String} :
    Step.set n ∈ lines.flatMap steps ↔ n ∈ lines.flatMap labels := by
  rw [List.mem_flatMap, List.mem_flatMap]
  exact exists_congr fun line => and_congr_right fun hl => mem_set_steps (h line hl)

theorem mem_use_flatMap (h : ∀ line ∈ lines, line.Readable) {n : String} :
    Step.use n ∈ lines.flatMap steps ↔ n ∈ lines.flatMap uses := by
  rw [List.mem_flatMap, List.mem_flatMap]
  exact exists_congr fun line => and_congr_right fun hl => mem_use_steps (h line hl)

theorem mem_share_flatMap (h : ∀ line ∈ lines, line.Readable) {n : String} :
    Step.share n ∈ lines.flatMap steps ↔ n ∈ lines.flatMap exports := by
  rw [List.mem_flatMap, List.mem_flatMap]
  exact exists_congr fun line => and_congr_right fun hl => mem_share_steps (h line hl)

theorem mem_names_flatMap (h : ∀ line ∈ lines, line.Readable) {n : String} :
    n ∈ (lines.flatMap steps).filterMap Step.name? ↔ n ∈ lines.flatMap names := by
  rw [List.filterMap_flatMap, List.mem_flatMap, List.mem_flatMap]
  exact exists_congr fun line => and_congr_right fun hl => mem_names_iff (h line hl)

theorem along_admitted_iff : Along Step.Admitted (lines.flatMap steps) ↔ Accepted lines := by
  have hreadable : (∀ line ∈ lines, line.Readable) ↔
      Along (fun _ (s : Step) => ∀ f, s ≠ .refuse f) (lines.flatMap steps) := by
    rw [along_const (p := fun s : Step => ∀ f, s ≠ .refuse f), List.forall_mem_flatMap]
    exact forall₂_congr fun line _ => readable_iff
  -- that nothing comes twice is asked of each step and those in front of it
  have hsections := nodup_filterMap_iff_along (f := Step.opens?) (l := lines.flatMap steps)
  have hlabels := nodup_filterMap_iff_along (f := Step.set?) (l := lines.flatMap steps)
  rw [filterMap_opens?] at hsections
  constructor
  · intro h
    have hr := hreadable.2 (h.imp fun _ _ _ hs => hs.accepted)
    rw [filterMap_set?_flatMap hr] at hlabels
    exact ⟨hr, (along_needsPlace_iff hr).1 (h.imp fun _ _ _ hs => hs.placed),
      hsections.2 (h.imp fun _ _ _ hs => hs.sections),
      hlabels.2 (h.imp fun _ _ _ hs => hs.labels),
      (along_fits_iff hr).1 (h.imp fun _ _ _ hs => hs.fits)⟩
  · intro h as s bs hsplit
    rw [filterMap_set?_flatMap h.readable] at hlabels
    exact ⟨(along_needsPlace_iff h.readable).2 h.placed as s bs hsplit,
      hsections.1 h.sections as s bs hsplit, hlabels.1 h.labels as s bs hsplit,
      (along_fits_iff h.readable).2 h.fits as s bs hsplit,
      hreadable.1 h.readable as s bs hsplit⟩

end Line

/-! ### Runs over lines -/

namespace Layout

variable {lines : List Line} {l : Layout}

theorem isValid_of_mem_located (hlabels : ∀ line ∈ lines, ∀ n ∈ line.labels, Identifier.isValid n) :
    ∀ x ∈ lines.flatMap Line.located, ∀ n, x.2.name? = some n → Identifier.isValid n := by
  intro x hx n hn
  obtain ⟨line, hline, hx⟩ := List.mem_flatMap.1 hx
  rcases List.mem_append.1 (Line.mem_located.1 hx).2 with hs | hs
  · obtain ⟨m, hm, hs⟩ := List.mem_map.1 hs
    rw [← hs] at hn
    exact Option.some.inj hn ▸ hlabels line hline m hm
  · cases hst : line.statement with
    | none => simp [hst] at hs
    | some st => exact Statement.isValid_of_mem_steps (by simpa [hst] using hs) hn

theorem exists_takes_lines_iff
    (hlabels : ∀ line ∈ lines, ∀ n ∈ line.labels, Identifier.isValid n) :
    (∃ l, (start .empty).Takes (lines.flatMap Line.located) l) ↔ Line.Accepted lines := by
  rw [exists_takes_start_iff (isValid_of_mem_located hlabels), Line.map_snd_flatMap_located,
    Line.along_admitted_iff]

theorem Takes.accepted (h : (start .empty).Takes (lines.flatMap Line.located) l)
    (hlabels : ∀ line ∈ lines, ∀ n ∈ line.labels, Identifier.isValid n) : Line.Accepted lines :=
  (exists_takes_lines_iff hlabels).1 ⟨l, h⟩

/-- In the end every name has a meaning exactly if each name that is used is a label or exported. -/
theorem Takes.unresolved?_lines_iff (h : (start .empty).Takes (lines.flatMap Line.located) l)
    (hlabels : ∀ line ∈ lines, ∀ n ∈ line.labels, Identifier.isValid n) :
    unresolved? l.symbols = none ↔ ∀ n ∈ lines.flatMap Line.uses,
      n ∈ lines.flatMap Line.labels ∨ n ∈ lines.flatMap Line.exports := by
  have hr := (h.accepted hlabels).readable
  rw [h.unresolved?_eq_none_iff (isValid_of_mem_located hlabels), Line.map_snd_flatMap_located]
  refine forall_congr' fun n => ?_
  rw [Line.mem_use_flatMap hr, Line.mem_set_flatMap hr, Line.mem_share_flatMap hr]

/-- The entry of a name: there is one if the name comes up in a line, it is defined if the name is a
label and global if the name is exported. -/
theorem Takes.entry (h : (start .empty).Takes (lines.flatMap Line.located) l)
    (hlabels : ∀ line ∈ lines, ∀ n ∈ line.labels, Identifier.isValid n) {n : String}
    (hn : Identifier.isValid n) :
    (l.symbols.get? n = none ∧ n ∉ lines.flatMap Line.names) ∨
      ∃ s, l.symbols.get? n = some s ∧ n ∈ lines.flatMap Line.names ∧
        (s.isDefined ↔ n ∈ lines.flatMap Line.labels) ∧
        (s.isGlobal ↔ n ∈ lines.flatMap Line.exports) ∧ (s.isDefined = false → s.offset = 0) := by
  have hr := (h.accepted hlabels).readable
  have htells := h.tells hn
  rw [Line.map_snd_flatMap_located, Line.mem_names_flatMap hr] at htells
  refine htells.imp_right ?_
  rintro ⟨s, hs, hmem, ht⟩
  exact ⟨s, hs, hmem, ht.isDefined.trans (Line.mem_set_flatMap hr),
    ht.isGlobal.trans (Line.mem_share_flatMap hr), ht.offset⟩

theorem Takes.label {xs ys : List Line} {line : Line}
    (h : (start .empty).Takes ((xs ++ line :: ys).flatMap Line.located) l) {n : String}
    (hn : n ∈ line.labels) :
    ∃ p s, xs.foldl Line.next none = some p ∧ l.symbols.get? n = some s ∧ s.home = some p.kind ∧
      s.offset = p.location := by
  obtain ⟨m, h1, h2⟩ := takes_lines_append.1 h
  obtain ⟨m', hline, hrest⟩ := takes_lines_cons.1 h2
  obtain ⟨p, s, hp, hs, hhome, hoffset⟩ := hline.symbol_of_mem_labels hn
  obtain ⟨r, hr, hlater⟩ := hrest.grows.get? hs
  obtain ⟨h3, h4⟩ := hlater.defined (Symbol.isDefined_of_home hhome)
  refine ⟨p, r, ?_, hr, h3.trans hhome, h4.trans hoffset⟩
  rw [← hp, h1.place, Line.map_snd_flatMap_located, ← Line.foldl_next]
  rfl

end Layout

/-- A source is laid out exactly if its rows read as lines that are accepted and every name that they
use is a label or exported. -/
theorem Program.exists_layout_iff {source : String} :
    (∃ sections, ((ofSource source).layout .empty).sections = .ok sections) ↔
      ∃ lines, Reads 0 (Text.rows source) lines ∧ Line.Accepted lines ∧
        ∀ n ∈ lines.flatMap Line.uses,
          n ∈ lines.flatMap Line.labels ∨ n ∈ lines.flatMap Line.exports := by
  have hlabels : ∀ line ∈ (ofSource source).lines, ∀ n ∈ line.labels, Identifier.isValid n := by
    intro line hline n hn
    obtain ⟨row, raw, -, hp⟩ := exists_parse_of_mem_lines hline
    exact Line.isValid_of_mem_labels hp hn
  constructor
  · rintro ⟨sections, hs⟩
    obtain ⟨l, ht, hu, -, -⟩ := layout_eq_ok_iff.1 hs
    obtain ⟨ht, hf⟩ := takes_steps_iff.1 ht
    refine ⟨(ofSource source).lines, ofRows_eq_iff.1 ?_, ht.accepted hlabels,
      (ht.unresolved?_lines_iff hlabels).1 hu⟩
    rw [← hf]
    rfl
  · rintro ⟨lines, hread, hacc, hres⟩
    have hprogram : ofSource source = ⟨lines, none⟩ := ofRows_eq_iff.2 hread
    rw [hprogram] at hlabels ⊢
    obtain ⟨l, ht⟩ := (Layout.exists_takes_lines_iff hlabels).2 hacc
    refine ⟨l.extents, ?_⟩
    rw [layout_of_takes (takes_steps_iff.2 ⟨ht, rfl⟩)
      ((ht.unresolved?_lines_iff hlabels).2 hres)]

end SS16
