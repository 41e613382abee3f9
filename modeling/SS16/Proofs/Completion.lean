import SS16.Proofs.Layout.Acceptance
import SS16.Proofs.Layout.Stops

/-!
# SS16.Proofs.Completion — what a sweep makes of symbols that are there already

The first sweep can start from any symbol table.  However it ends, it only puts entries behind those
of the table and completes these: an entry gets its definition from the first line that has its name
as a label, if it has none yet, and becomes global by a line that exports its name.  Main statements:
`Line.exists_first_label` and `completes_layout`.
-/

namespace SS16

/-! ### Labels and exports among steps -/

namespace Statement

theorem ne_set_of_mem_steps {s : Statement} {t : Step} (h : t ∈ s.steps) (n : String) :
    t ≠ .set n := by
  rintro rfl
  cases asks_of_mem_steps h

theorem mem_exports_of_mem_steps {s : Statement} {n : String} (h : Step.share n ∈ s.steps) :
    n ∈ s.exports := by
  cases s with
  | global names =>
    obtain ⟨m, hm, he⟩ := List.mem_map.1 h
    unfold shareStep at he
    split_ifs at he
    obtain rfl := Step.share.inj he
    exact hm
  | data w args =>
    simp only [steps, List.mem_cons, List.mem_append, List.mem_filterMap, reduceCtorEq,
      List.not_mem_nil, or_false, false_or] at h
    obtain ⟨arg, -, harg⟩ := h
    unfold dataStep at harg
    split_ifs at harg <;> cases harg
  | instruction m args =>
    simp only [steps, List.mem_cons, reduceCtorEq, false_or] at h
    unfold operandSteps at h
    split at h <;> simp at h
  | stop | enter k | skip k | align k => simp [steps] at h

end Statement

namespace Line

theorem mem_labels_of_mem_steps {line : Line} {n : String} (h : Step.set n ∈ line.steps) :
    n ∈ line.labels := by
  rcases List.mem_append.1 h with h | h
  · obtain ⟨m, hm, he⟩ := List.mem_map.1 h
    exact Step.set.inj he ▸ hm
  · cases hs : line.statement with
    | none => simp [hs] at h
    | some s => exact absurd rfl (Statement.ne_set_of_mem_steps (by simpa [hs] using h) n)

theorem mem_exports_of_mem_steps {line : Line} {n : String} (h : Step.share n ∈ line.steps) :
    n ∈ line.exports := by
  rcases List.mem_append.1 h with h | h
  · obtain ⟨m, -, he⟩ := List.mem_map.1 h
    cases he
  · unfold exports
    cases hs : line.statement with
    | none => simp [hs] at h
    | some s => exact Statement.mem_exports_of_mem_steps (by simpa [hs] using h)

/-- The first step that sets a name stands in the first line that has it as a label, and only labels
of that line stand between the line before and it. -/
theorem exists_first_label {lines : List Line} {n : String} {as bs : List Step}
    (h : lines.flatMap steps = as ++ .set n :: bs) (hn : Step.set n ∉ as) :
    ∃ before line after, lines = before ++ line :: after ∧ n ∈ line.labels ∧
      (∀ earlier ∈ before, n ∉ earlier.labels) ∧
      ∀ here, as.foldl Step.next here = before.foldl next here := by
  induction lines generalizing as with
  | nil => simp at h
  | cons line lines ih =>
    rw [List.flatMap_cons] at h
    by_cases hlabel : n ∈ line.labels
    · refine ⟨[], line, lines, rfl, hlabel, List.forall_mem_nil _, fun here => ?_⟩
      refine Step.foldl_next_eq_self (fun t ht => ?_) here
      -- what stands in front of the step is a part of the labels, since the step is one of them
      have hset : Step.set n ∈ line.labels.map Step.set := List.mem_map_of_mem hlabel
      unfold steps at h
      rw [List.append_assoc] at h
      rcases List.append_eq_append_iff.1 h with ⟨cs, rfl, -⟩ | ⟨cs, hcs, -⟩
      · exact absurd (List.mem_append_left cs hset) hn
      · exact next_of_mem_set (hcs ▸ List.mem_append_left cs ht)
    · have hline : Step.set n ∉ line.steps := fun hmem => hlabel (mem_labels_of_mem_steps hmem)
      obtain ⟨cs, rfl, hrest⟩ : ∃ cs, as = line.steps ++ cs ∧
          lines.flatMap steps = cs ++ .set n :: bs := by
        rcases List.append_eq_append_iff.1 h with ⟨cs, rfl, hcs⟩ | ⟨cs, hcs, hrest⟩
        · exact ⟨cs, rfl, hcs⟩
        · cases cs with
          | nil => exact ⟨[], by simpa using hcs.symm, hrest.symm⟩
          | cons c cs =>
            obtain ⟨rfl, -⟩ := List.cons.inj hrest
            exact absurd (hcs ▸ List.mem_append_right as List.mem_cons_self) hline
      obtain ⟨before, first, after, rfl, hfirst, hbefore, hnext⟩ :=
        ih hrest fun hmem => hn (List.mem_append_right _ hmem)
      refine ⟨line :: before, first, after, rfl, hfirst, ?_, fun here => ?_⟩
      · exact List.forall_mem_cons.2 ⟨hlabel, hbefore⟩
      · rw [List.foldl_append, List.foldl_cons, hnext]
        rfl

end Line

/-! ### Entries of the table that a sweep starts from -/

namespace Program

/-- Where a program sets a name: the place in front of the first line that has it as a label. -/
def Sets (p : Program) (name : String) (here : Place) : Prop :=
  ∃ before line after, p.lines = before ++ line :: after ∧ name ∈ line.labels ∧
    (∀ earlier ∈ before, name ∉ earlier.labels) ∧ before.foldl Line.next none = some here

/-- What a sweep over a program may make of an entry that is there before it. -/
structure Completes (p : Program) (s r : Symbol) : Prop where
  name : r.name = s.name
  number : r.number = s.number
  defined : s.isDefined → r.home = s.home ∧ r.offset = s.offset
  undefined : s.isDefined = false → r.isDefined = false ∧ r.offset = s.offset ∨
    ∃ here, p.Sets s.name here ∧ r.home = some here.kind ∧ r.offset = here.location
  binding : r.binding = s.binding ∨ s.binding = .internal ∧ r.binding = .global ∧
    ∃ line ∈ p.lines, s.name ∈ line.exports

variable {p : Program} {t : SymbolTable} {l l' : Layout} {s r : Symbol} {xs : List (Nat × Step)}

/-- Steps that are all taken are steps of lines, since the step of a row that is no line is
refused. -/
theorem located_of_takes (hx : xs <+: p.steps) (h : l.Takes xs l') :
    xs <+: p.lines.flatMap Line.located := by
  rw [steps_eq] at hx
  cases hf : p.fault with
  | none => simpa [hf] using hx
  | some f =>
    rw [hf] at hx
    rcases List.prefix_concat_iff.1 hx with rfl | hx
    · obtain ⟨m, -, hm⟩ := Layout.takes_append.1 h
      obtain ⟨hr, -⟩ := Layout.takes_cons.1 hm
      cases hr
    · exact hx

theorem sets_of_steps {n : String} {as bs : List Step} {here : Place}
    (h : as ++ .set n :: bs <+: p.lines.flatMap Line.steps) (hn : Step.set n ∉ as)
    (hp : as.foldl Step.next none = some here) : p.Sets n here := by
  obtain ⟨more, hmore⟩ := h
  rw [List.append_assoc, List.cons_append] at hmore
  obtain ⟨before, line, after, hlines, hlabel, hbefore, hnext⟩ :=
    Line.exists_first_label hmore.symm hn
  exact ⟨before, line, after, hlines, hlabel, hbefore, hnext none ▸ hp⟩

theorem completes_of_takes (hx : xs <+: p.steps) (h : (Layout.start t).Takes xs l)
    (hs : t.get? s.name = some s) (hr : l.symbols.get? s.name = some r) : p.Completes s r := by
  have hlines : xs.map Prod.snd <+: p.lines.flatMap Line.steps := by
    rw [← Line.map_snd_flatMap_located]
    exact (located_of_takes hx h).map Prod.snd
  obtain ⟨q, hq, hc⟩ := h.completedBy hs
  obtain rfl := Option.some.inj (hq.symm.trans hr)
  refine ⟨hc.later.name, hc.later.number, hc.later.defined, fun hd => ?_, ?_⟩
  · cases hqd : q.isDefined with
    | false => exact .inl ⟨rfl, hc.later.undefined hqd⟩
    | true =>
      obtain ⟨before, after, here, hsteps, hfirst, hp, hhome, hoffset⟩ := hc.home hd hqd
      exact .inr ⟨here, sets_of_steps (hsteps ▸ hlines) hfirst hp, hhome, hoffset⟩
  · refine hc.binding.imp_right fun ⟨hb, hq, hshare⟩ => ⟨hb, hq, ?_⟩
    obtain ⟨line, hline, hstep⟩ := List.mem_flatMap.1 (hlines.subset hshare)
    exact ⟨line, hline, Line.mem_exports_of_mem_steps hstep⟩

end Program

/-- If each element of a list is related to the one at its position in another, the other list starts
with related elements. -/
theorem exists_forall₂_prefix {α β : Type} {R : α → β → Prop} {xs : List α} {ys : List β}
    (h : ∀ (i : Nat) x, xs[i]? = some x → ∃ y, ys[i]? = some y ∧ R x y) :
    ∃ kept added, ys = kept ++ added ∧ List.Forall₂ R xs kept := by
  induction xs generalizing ys with
  | nil => exact ⟨[], ys, rfl, .nil⟩
  | cons x xs ih =>
    obtain ⟨y, hy, hxy⟩ := h 0 x rfl
    cases ys with
    | nil => cases hy
    | cons z ys =>
      obtain rfl := Option.some.inj hy
      obtain ⟨kept, added, rfl, hall⟩ := ih fun i w hw => h (i + 1) w hw
      exact ⟨z :: kept, added, rfl, .cons hxy hall⟩

/-- However the first sweep ends, its table is the one it started from, each entry completed at its
position, with entries behind. -/
theorem completes_layout (t : SymbolTable) (source : String) :
    ∃ kept added, ((Program.ofSource source).layout t).symbols.toList = kept ++ added ∧
      List.Forall₂ (Program.ofSource source).Completes t.toList kept := by
  obtain ⟨xs, l, hx, ht, hsymbols⟩ := (Program.ofSource source).exists_takes_of_layout t
  rw [hsymbols]
  refine exists_forall₂_prefix fun i s hs => ?_
  obtain ⟨r, hr, hl⟩ := ht.grows i s hs
  refine ⟨r, hr, Program.completes_of_takes hx ht ?_ ?_⟩
  · exact SymbolTable.get?_of_mem (List.mem_of_getElem? hs)
  · exact hl.name ▸ SymbolTable.get?_of_mem (List.mem_of_getElem? hr)

end SS16
