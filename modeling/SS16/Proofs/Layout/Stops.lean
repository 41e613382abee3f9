import SS16.Proofs.Layout.Admission

/-!
# SS16.Proofs.Layout.Stops — how far a run comes

A run that is refused has taken the steps in front of the refused one, and what they did stays.
`Symbol.CompletedBy` says what steps make of an entry that is there before them.  Main statements:
`Layout.exists_refused_of_run`, `Program.exists_of_layout_eq_error` (why a program is not laid out)
and `Layout.Takes.completedBy`.
-/

namespace SS16

namespace Layout

variable {l l' : Layout} {xs : List (Nat × Step)}

theorem exists_refused_of_run {f : Located} (h : l.run xs = (l', some f)) :
    ∃ ys x zs g, xs = ys ++ x :: zs ∧ l.Takes ys l' ∧ l'.refusal? x.2 = some g ∧
      f = g.inRow x.1 := by
  induction xs generalizing l with
  | nil => cases h
  | cons x xs ih =>
    obtain ⟨row, s⟩ := x
    rw [run] at h
    cases hs : l.refusal? s with
    | some g =>
      rw [hs] at h
      cases h
      exact ⟨[], (row, s), xs, g, rfl, takes_nil.2 rfl, hs, rfl⟩
    | none =>
      rw [hs] at h
      obtain ⟨ys, x, zs, g, rfl, ht, hg, hf⟩ := ih h
      exact ⟨(row, s) :: ys, x, zs, g, rfl, takes_cons.2 ⟨hs, ht⟩, hg, hf⟩

/-- Whether or not a run comes to its end, it takes the steps that it has come past. -/
theorem exists_takes_of_run {o : Option Located} (h : l.run xs = (l', o)) :
    ∃ ys, ys <+: xs ∧ l.Takes ys l' := by
  cases o with
  | none => exact ⟨xs, List.prefix_refl xs, h⟩
  | some f =>
    obtain ⟨ys, x, zs, -, rfl, ht, -⟩ := exists_refused_of_run h
    exact ⟨ys, List.prefix_append ys (x :: zs), ht⟩

end Layout

namespace Program

variable {p : Program} {t : SymbolTable}

theorem exists_takes_of_layout (p : Program) (t : SymbolTable) :
    ∃ xs l, xs <+: p.steps ∧ (Layout.start t).Takes xs l ∧ (p.layout t).symbols = l.symbols := by
  obtain ⟨l, o, hrun, hsymbols⟩ : ∃ l o,
      (Layout.start t).run p.steps = (l, o) ∧ (p.layout t).symbols = l.symbols := by
    refine ⟨_, _, rfl, ?_⟩
    unfold layout
    dsimp only
    generalize (Layout.start t).run p.steps = r
    obtain ⟨l, _ | f⟩ := r
    · dsimp only
      cases Layout.unresolved? l.symbols <;> rfl
    · rfl
  obtain ⟨xs, hx, ht⟩ := Layout.exists_takes_of_run hrun
  exact ⟨xs, l, hx, ht, hsymbols⟩

/-- A program that is not laid out has a step that is refused, or a name without a meaning is left
when all steps are taken. -/
theorem exists_of_layout_eq_error {f : Located} (h : (p.layout t).sections = .error f) :
    (∃ l, ∃ x ∈ p.steps, ∃ g, Layout.refusal? l x.2 = some g ∧ f = g.inRow x.1) ∨
      ∃ l s, (Layout.start t).Takes p.steps l ∧ Layout.unresolved? l.symbols = some s ∧
        f = Layout.unresolvedFault t p.steps s := by
  unfold layout at h
  dsimp only at h
  cases hr : (Layout.start t).run p.steps with
  | mk l o =>
    rw [hr] at h
    cases o with
    | some g =>
      obtain ⟨ys, x, zs, g', hsteps, -, hg, rfl⟩ := Layout.exists_refused_of_run hr
      cases h
      exact .inl ⟨l, x, hsteps ▸ List.mem_append_right ys List.mem_cons_self, g', hg, rfl⟩
    | none =>
      dsimp only at h
      cases hu : Layout.unresolved? l.symbols with
      | none =>
        rw [hu] at h
        cases h
      | some s =>
        rw [hu] at h
        cases h
        exact .inr ⟨l, s, hr, hu, rfl⟩

theorem layout_eq_error_of_unresolved {l : Layout} {s : Symbol}
    (h : (Layout.start t).Takes p.steps l) (hs : Layout.unresolved? l.symbols = some s) :
    (p.layout t).sections = .error (Layout.unresolvedFault t p.steps s) := by
  have hrun : (Layout.start t).run p.steps = (l, none) := h
  unfold layout
  dsimp only
  rw [hrun]
  dsimp only
  rw [hs]

end Program

/-! ### Entries that are there before the steps -/

namespace Symbol

/-- What steps from a place on make of an entry.  Its definition, if it has none before, is from the
first step that sets its name, and it becomes global only by a step that shares its name. -/
structure CompletedBy (here : Option Place) (xs : List Step) (s r : Symbol) : Prop where
  later : s.Later r
  binding : r.binding = s.binding ∨
    s.binding = .internal ∧ r.binding = .global ∧ Step.share s.name ∈ xs
  isDefined : Step.set s.name ∈ xs → r.isDefined
  home : s.isDefined = false → r.isDefined → ∃ before after p,
    xs = before ++ .set s.name :: after ∧ Step.set s.name ∉ before ∧
      before.foldl Step.next here = some p ∧ r.home = some p.kind ∧ r.offset = p.location

variable {here : Option Place} {xs ys : List Step} {s q r : Symbol}

theorem completedBy_nil (here : Option Place) (s : Symbol) : s.CompletedBy here [] s where
  later := .refl s
  binding := .inl rfl
  isDefined hs := by cases hs
  home h hr := by simp [h] at hr

theorem CompletedBy.append (h : s.CompletedBy here xs q)
    (h' : q.CompletedBy (xs.foldl Step.next here) ys r) : s.CompletedBy here (xs ++ ys) r where
  later := h.later.trans h'.later
  binding := by
    have hname := h.later.name
    rcases h'.binding with hr | ⟨hq, hr, hmem⟩
    · rw [hr]
      exact h.binding.imp_right fun ⟨h1, h2, h3⟩ => ⟨h1, h2, List.mem_append_left ys h3⟩
    · rcases h.binding with hb | ⟨-, hb, -⟩
      · exact .inr ⟨hb ▸ hq, hr, List.mem_append_right xs (hname ▸ hmem)⟩
      · cases hb.symm.trans hq
  isDefined hs := by
    rcases List.mem_append.1 hs with hs | hs
    · exact h'.later.isDefined (h.isDefined hs)
    · exact h'.isDefined (h.later.name ▸ hs)
  home hs hr := by
    by_cases hq : q.isDefined
    · -- the definition is from the first steps, and the others leave it
      obtain ⟨before, after, p, rfl, hfirst, hp, hhome, hoffset⟩ := h.home hs hq
      obtain ⟨hhome', hoffset'⟩ := h'.later.defined hq
      exact ⟨before, after ++ ys, p, by simp, hfirst, hp, hhome'.trans hhome,
        hoffset'.trans hoffset⟩
    · obtain ⟨before, after, p, rfl, hfirst, hp, hhome, hoffset⟩ :=
        h'.home (by simpa using hq) hr
      rw [h.later.name] at hfirst ⊢
      refine ⟨xs ++ before, after, p, by simp, fun hmem => ?_, ?_, hhome, hoffset⟩
      · rcases List.mem_append.1 hmem with hmem | hmem
        · exact hq (h.isDefined hmem)
        · exact hfirst hmem
      · rw [List.foldl_append]
        exact hp

end Symbol

namespace Layout

variable {l l' : Layout} {s : Symbol}

/-- A step touches an entry that is there if it has its name, and else leaves it. -/
theorem get?_take_of_some {t : Step} (h : l.refusal? t = none) {n : String}
    (hs : l.symbols.get? n = some s) :
    (l.take t).symbols.get? n = some (if t.name? = some n then t.touch l.place s else s) := by
  cases ht : t.name? with
  | some m =>
    rw [get?_take_of_name h ht, SymbolTable.get?_insert, Step.name_touch, name_entryOr]
    by_cases hmn : m = n
    · subst hmn
      rw [if_pos rfl, if_pos rfl, entryOr, hs]
      rfl
    · rw [if_neg hmn, if_neg fun he => hmn (Option.some.inj he)]
      exact hs
  | none =>
    rw [if_neg (by simp)]
    cases t with
    | enter k =>
      show (l.close.symbols.insert (.ofSection k)).get? n = _
      rw [SymbolTable.get?_insert_of_ne, close_symbols]
      · exact hs
      · -- a section whose name has an entry is refused
        rintro rfl
        have hc : l.symbols.contains k.name := SymbolTable.contains_iff.2 ⟨s, hs⟩
        simp [refusal?, hc] at h
    | set m | use m | share m => cases ht
    | _ => exact hs

theorem completedBy_take {t : Step} (h : l.refusal? t = none)
    (hs : l.symbols.get? s.name = some s) :
    s.CompletedBy l.place [t] (if t.name? = some s.name then t.touch l.place s else s) := by
  have hkeep : ∀ u : Step, u ≠ .set s.name → s.CompletedBy l.place [u] s := fun u hu =>
    { later := .refl s
      binding := .inl rfl
      isDefined := fun hmem => absurd (List.mem_singleton.1 hmem).symm hu
      home := fun hd hd' => by simp [hd] at hd' }
  split_ifs with hname
  · cases t with
    | set n =>
      obtain rfl : n = s.name := Option.some.inj hname
      obtain ⟨p, hp⟩ := Option.isSome_iff_exists.1 (isSome_place_of_needsPlace h rfl)
      have hd : s.isDefined = false := by
        by_contra hd
        simp [refusal?, hp, hs, hd] at h
      rw [hp]
      exact
        { later := Symbol.later_define hd p.kind p.location
          binding := .inl rfl
          isDefined := fun _ => rfl
          home := fun _ _ => ⟨[], [], p, rfl, List.not_mem_nil, rfl, rfl, rfl⟩ }
    | share n =>
      obtain rfl : n = s.name := Option.some.inj hname
      refine
        { later := Symbol.later_share s
          binding := ?_
          isDefined := fun hmem => by simp at hmem
          home := fun hd hd' => absurd (show s.isDefined from hd') (by simp [hd]) }
      cases hb : s.binding with
      | internal => exact .inr ⟨rfl, rfl, List.mem_singleton.2 rfl⟩
      | global => exact .inl rfl
    | use n => exact hkeep _ (by simp)
    | _ => cases hname
  · refine hkeep t ?_
    rintro rfl
    exact hname rfl

theorem Takes.completedBy {xs : List (Nat × Step)} (h : l.Takes xs l')
    (hs : l.symbols.get? s.name = some s) :
    ∃ r, l'.symbols.get? s.name = some r ∧ s.CompletedBy l.place (xs.map Prod.snd) r := by
  induction xs generalizing l s with
  | nil =>
    obtain rfl := takes_nil.1 h
    exact ⟨s, hs, Symbol.completedBy_nil l.place s⟩
  | cons x xs ih =>
    obtain ⟨hx, h⟩ := takes_cons.1 h
    obtain ⟨q, hq, hstep⟩ : ∃ q, (l.take x.2).symbols.get? s.name = some q ∧
        s.CompletedBy l.place [x.2] q :=
      ⟨_, get?_take_of_some hx hs, completedBy_take hx hs⟩
    obtain ⟨r, hr, hrest⟩ := ih h (hstep.later.name.symm ▸ hq)
    rw [hstep.later.name] at hr
    rw [place_take] at hrest
    exact ⟨r, hr, hstep.append hrest⟩

end Layout

end SS16
