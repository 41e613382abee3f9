import SS16.Proofs.Layout.Acceptance

/-!
# SS16.Proofs.Layout.Reordering — lines in another order

What the first sweep asks for and where it puts labels depends on the places of those lines that have
labels or take part in a section.  If these stand at the same places in another order of the lines,
the lines are accepted as before and the symbols are the same.  Main statements:
`Line.Accepted.reordered` and `Layout.Takes.agree`.
-/

namespace SS16

namespace Line

/-- Lines in another order, in which what a place has to meet for lines that have labels or take part
in a section is met or not as before. -/
structure Reordered (lines lines' : List Line) : Prop where
  perm : lines.Perm lines'
  along_iff : ∀ Q : Option Place → Line → Prop,
    (∀ here line, line.labels = [] → line.occupies = false → Q here line) →
    (Along (fun before line => Q (before.foldl next none) line) lines ↔
      Along (fun before line => Q (before.foldl next none) line) lines')

theorem Reordered.symm {lines lines' : List Line} (h : Reordered lines lines') :
    Reordered lines' lines where
  perm := h.perm.symm
  along_iff Q hQ := (h.along_iff Q hQ).symm

variable {lines lines' : List Line}

theorem Reordered.valid (h : Reordered lines lines')
    (hlabels : ∀ line ∈ lines, ∀ n ∈ line.labels, Identifier.isValid n) :
    ∀ line ∈ lines', ∀ n ∈ line.labels, Identifier.isValid n :=
  fun line hline => hlabels line (h.perm.mem_iff.2 hline)

theorem Accepted.reordered (h : Accepted lines) (hr : Reordered lines lines') :
    Accepted lines' := by
  refine ⟨fun line hline => h.readable line (hr.perm.mem_iff.2 hline), ?_,
    (hr.perm.filterMap opens?).nodup_iff.1 h.sections,
    (hr.perm.flatMap_right Line.labels).nodup_iff.1 h.labels, ?_⟩
  · have hplaced := h.placed
    simp only [← isSome_foldl_next] at hplaced ⊢
    refine (hr.along_iff (fun here line => line.NeedsPlace → here.isSome) ?_).1 hplaced
    rintro here line hl ho (hne | hocc)
    · exact absurd hl hne
    · rw [ho] at hocc
      cases hocc
  · refine (hr.along_iff (fun here line => line.Fits here) ?_).1 h.fits
    intro here line _ ho t ht
    cases moves_of_motion ht with
    | enter k => exact fun _ _ => rfl
    | advance n hocc =>
      rw [ho] at hocc
      cases hocc
    | align n hocc =>
      rw [ho] at hocc
      cases hocc

end Line

/-! ### Symbols -/

/-- What an entry says besides its name and its number. -/
def Symbol.meaning (s : Symbol) : Option Section × UInt16 × Binding := (s.home, s.offset, s.binding)

theorem Symbol.home_eq_none {s : Symbol} (h : s.isDefined = false) : s.home = none :=
  Option.isNone_iff_eq_none.1 (Option.isSome_eq_false_iff.1 h)

theorem Symbol.meaning_eq {s r : Symbol} (hhome : s.home = r.home) (hoffset : s.offset = r.offset)
    (hglobal : s.isGlobal ↔ r.isGlobal) : s.meaning = r.meaning := by
  have hbinding : s.binding = r.binding := by
    unfold isGlobal at hglobal
    revert hglobal
    cases s.binding <;> cases r.binding <;> simp
  unfold meaning
  rw [hhome, hoffset, hbinding]

/-- Tables that have the same names, each with the same meaning. -/
def SymbolTable.Agree (t u : SymbolTable) : Prop :=
  ∀ n, (t.get? n).map Symbol.meaning = (u.get? n).map Symbol.meaning

theorem SymbolTable.agree_of_forall {t u : SymbolTable}
    (h : ∀ n s, t.get? n = some s → ∃ r, u.get? n = some r ∧ s.meaning = r.meaning)
    (h' : ∀ n s, u.get? n = some s → ∃ r, t.get? n = some r ∧ s.meaning = r.meaning) :
    t.Agree u := by
  intro n
  cases ht : t.get? n with
  | some s =>
    obtain ⟨r, hr, hsr⟩ := h n s ht
    rw [hr]
    exact congrArg some hsr
  | none =>
    cases hu : u.get? n with
    | none => rfl
    | some s =>
      obtain ⟨r, hr, -⟩ := h' n s hu
      rw [ht] at hr
      cases hr

namespace Layout

variable {lines lines' : List Line} {l l' : Layout}

theorem Takes.label_reordered (h : (start .empty).Takes (lines.flatMap Line.located) l)
    (h' : (start .empty).Takes (lines'.flatMap Line.located) l')
    (hr : Line.Reordered lines lines') {n : String} (hn : n ∈ lines.flatMap Line.labels) :
    ∃ s r, l.symbols.get? n = some s ∧ l'.symbols.get? n = some r ∧ s.home = r.home ∧
      s.offset = r.offset := by
  -- all lines that set the name stand at the place that its entry tells
  obtain ⟨line, hline, hnl⟩ := List.mem_flatMap.1 hn
  obtain ⟨xs, ys, rfl⟩ := List.append_of_mem hline
  obtain ⟨p, s, -, hs, hhome, hoffset⟩ := h.label hnl
  have hall : Along (fun before (line : Line) =>
      n ∈ line.labels → before.foldl Line.next none = some p) (xs ++ line :: ys) := by
    intro before other rest he hother
    obtain ⟨q, r, hq, hr, hrhome, hroffset⟩ := (he ▸ h).label hother
    obtain rfl := Option.some.inj (hs.symm.trans hr)
    obtain ⟨k, a⟩ := p
    obtain ⟨j, b⟩ := q
    obtain rfl : j = k := Option.some.inj (hrhome.symm.trans hhome)
    obtain rfl : b = a := hroffset.symm.trans hoffset
    exact hq
  have hall' := (hr.along_iff (fun here line => n ∈ line.labels → here = some p)
    (fun here line hl _ hmem => by simp [hl] at hmem)).1 hall
  obtain ⟨xs', ys', hsplit'⟩ := List.append_of_mem (hr.perm.mem_iff.1 hline)
  obtain ⟨q, r, hq, hr, hrhome, hroffset⟩ := (hsplit' ▸ h').label hnl
  obtain rfl : p = q := Option.some.inj ((hall' xs' line ys' hsplit' hnl).symm.trans hq)
  exact ⟨s, r, hs, hr, hhome.trans hrhome.symm, hoffset.trans hroffset.symm⟩

theorem Takes.get?_reordered (h : (start .empty).Takes (lines.flatMap Line.located) l)
    (h' : (start .empty).Takes (lines'.flatMap Line.located) l')
    (hlabels : ∀ line ∈ lines, ∀ n ∈ line.labels, Identifier.isValid n)
    (hr : Line.Reordered lines lines') {n : String} {s : Symbol}
    (hs : l.symbols.get? n = some s) :
    ∃ r, l'.symbols.get? n = some r ∧ s.meaning = r.meaning := by
  have hlabels' := hr.valid hlabels
  have hw := wellFormed_start.takes h (isValid_of_mem_located hlabels)
  have hw' := wellFormed_start.takes h' (isValid_of_mem_located hlabels')
  obtain ⟨hmem, rfl⟩ := SymbolTable.get?_eq_some_iff.1 hs
  rcases hw.named s hmem with hv | ⟨k, rfl⟩
  · rcases h.entry hlabels hv with ⟨hnone, -⟩ | ⟨s', hs', hname, hdef, hglob, hoff⟩
    · rw [hs] at hnone
      cases hnone
    · obtain rfl := Option.some.inj (hs.symm.trans hs')
      rcases h'.entry hlabels' hv with ⟨-, hnot⟩ | ⟨r, hget, -, hdef', hglob', hoff'⟩
      · exact absurd ((hr.perm.flatMap_right Line.names).mem_iff.1 hname) hnot
      · refine ⟨r, hget, ?_⟩
        have hdefined : s.isDefined ↔ r.isDefined := by
          rw [hdef, hdef', (hr.perm.flatMap_right Line.labels).mem_iff]
        have hglobal : s.isGlobal ↔ r.isGlobal := by
          rw [hglob, hglob', (hr.perm.flatMap_right Line.exports).mem_iff]
        by_cases hd : s.isDefined
        · obtain ⟨x, y, hx, hy, hhome, hoffset⟩ := h.label_reordered h' hr (hdef.1 hd)
          obtain rfl := Option.some.inj (hs.symm.trans hx)
          obtain rfl := Option.some.inj (hget.symm.trans hy)
          exact Symbol.meaning_eq hhome hoffset hglobal
        · have hs0 : s.isDefined = false := by simpa using hd
          have hr0 : r.isDefined = false := by simpa using fun hr => hd (hdefined.2 hr)
          refine Symbol.meaning_eq ?_ ((hoff hs0).trans (hoff' hr0).symm) hglobal
          rw [Symbol.home_eq_none hs0, Symbol.home_eq_none hr0]
  · refine ⟨.ofSection k, hw'.get? k ?_, rfl⟩
    have hk := hw.home _ hmem k rfl
    rw [h.kinds_of_start] at hk
    rw [h'.kinds_of_start]
    exact (hr.perm.filterMap Line.opens?).mem_iff.1 hk

theorem Takes.agree (h : (start .empty).Takes (lines.flatMap Line.located) l)
    (h' : (start .empty).Takes (lines'.flatMap Line.located) l')
    (hlabels : ∀ line ∈ lines, ∀ n ∈ line.labels, Identifier.isValid n)
    (hr : Line.Reordered lines lines') : l.symbols.Agree l'.symbols :=
  SymbolTable.agree_of_forall (fun _ _ hs => h.get?_reordered h' hlabels hr hs)
    fun _ _ hs => h'.get?_reordered h (hr.valid hlabels) hr.symm hs

theorem Takes.length_users (h : (start .empty).Takes (lines.flatMap Line.located) l)
    (h' : (start .empty).Takes (lines'.flatMap Line.located) l')
    (hlabels : ∀ line ∈ lines, ∀ n ∈ line.labels, Identifier.isValid n)
    (hr : Line.Reordered lines lines') :
    l.symbols.users.length = l'.symbols.users.length := by
  rw [h.card_names (isValid_of_mem_located hlabels),
    h'.card_names (isValid_of_mem_located (hr.valid hlabels))]
  exact congrArg _
    (List.toFinset_eq_of_perm _ _ ((hr.perm.flatMap_right Line.located).filterMap _))

theorem Takes.unresolved?_reordered (h : (start .empty).Takes (lines.flatMap Line.located) l)
    (h' : (start .empty).Takes (lines'.flatMap Line.located) l')
    (hlabels : ∀ line ∈ lines, ∀ n ∈ line.labels, Identifier.isValid n)
    (hr : Line.Reordered lines lines') (hu : unresolved? l.symbols = none) :
    unresolved? l'.symbols = none := by
  rw [h'.unresolved?_lines_iff (hr.valid hlabels)]
  intro n hn
  rw [← (hr.perm.flatMap_right Line.labels).mem_iff, ← (hr.perm.flatMap_right Line.exports).mem_iff]
  exact (h.unresolved?_lines_iff hlabels).1 hu n ((hr.perm.flatMap_right Line.uses).mem_iff.2 hn)

end Layout

end SS16
