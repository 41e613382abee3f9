import SS16.Proofs.Layout.Numbers

/-!
# SS16.Proofs.Layout.Program — layouts of lines and of programs

What the run lemmas of steps say about whole lines.  `Line.next` is the place after a line and
`Line.opens?` the section that it opens.  Main statements: `Program.layout_eq_ok_iff` (when a
program is laid out), `Layout.Takes.kinds_lines` and `Layout.Takes.symbol_of_mem_labels`.
-/

namespace SS16

namespace Statement

def opens? : Statement → Option Section
  | enter k => some k
  | stop | data _ _ | skip _ | align _ | global _ | instruction _ _ => none

theorem filterMap_opens?_steps (s : Statement) :
    s.steps.filterMap Step.opens? = s.opens?.toList := by
  cases hs : s.opens? with
  | some k =>
    cases s with
    | enter k' =>
      obtain rfl : k' = k := Option.some.inj hs
      rfl
    | _ => cases hs
  | none =>
    rw [Option.toList_none, List.filterMap_eq_nil_iff]
    intro t ht
    cases asks_of_mem_steps ht with
    | enter k he =>
      rw [he] at hs
      cases hs
    | _ => rfl

theorem next_of_mem_dataSteps {w : Width} {args : List String} {t : Step}
    (h : t ∈ args.filterMap (dataStep w)) (here : Option Place) : t.next here = here := by
  obtain ⟨arg, -, harg⟩ := List.mem_filterMap.1 h
  unfold dataStep at harg
  split_ifs at harg <;> cases harg <;> rfl

end Statement

namespace Line

def located (line : Line) : List (Nat × Step) := line.steps.map fun s => (line.row, s)

def next (here : Option Place) (line : Line) : Option Place := line.steps.foldl Step.next here

def opens? (line : Line) : Option Section := line.statement.bind Statement.opens?

theorem map_snd_located (line : Line) : line.located.map Prod.snd = line.steps := by
  unfold located
  rw [List.map_map]
  exact List.map_id line.steps

theorem mem_located {line : Line} {x : Nat × Step} :
    x ∈ line.located ↔ x.1 = line.row ∧ x.2 ∈ line.steps := by
  unfold located
  rw [List.mem_map]
  constructor
  · rintro ⟨s, hs, rfl⟩
    exact ⟨rfl, hs⟩
  · rintro ⟨hrow, hs⟩
    exact ⟨x.2, hs, by rw [← hrow]⟩

theorem next_of_mem_set {labels : List String} {s : Step} (h : s ∈ labels.map Step.set)
    (here : Option Place) : s.next here = here := by
  obtain ⟨n, -, rfl⟩ := List.mem_map.1 h
  rfl

theorem next_of_none {line : Line} (h : line.statement = none) (here : Option Place) :
    line.next here = here := by
  unfold next steps
  rw [h, List.foldl_append, Step.foldl_next_eq_self fun _ hs here => next_of_mem_set hs here]
  rfl

/-- Otherwise its statement alone moves the place. -/
theorem next_of_some {line : Line} {s : Statement} (h : line.statement = some s)
    (here : Option Place) : line.next here = s.steps.foldl Step.next here := by
  unfold next steps
  rw [h, List.foldl_append, Step.foldl_next_eq_self fun _ hs here => next_of_mem_set hs here]
  rfl

theorem filterMap_opens?_steps (line : Line) :
    line.steps.filterMap Step.opens? = line.opens?.toList := by
  have hlabels : (line.labels.map Step.set).filterMap Step.opens? = [] := by
    rw [List.filterMap_eq_nil_iff]
    intro s hs
    obtain ⟨n, -, rfl⟩ := List.mem_map.1 hs
    rfl
  unfold steps opens?
  rw [List.filterMap_append, hlabels, List.nil_append]
  cases line.statement with
  | none => rfl
  | some s => exact s.filterMap_opens?_steps

theorem foldl_next (lines : List Line) (here : Option Place) :
    lines.foldl next here = (lines.flatMap steps).foldl Step.next here := by
  rw [List.foldl_flatMap]
  rfl

theorem filterMap_opens? (lines : List Line) :
    (lines.flatMap steps).filterMap Step.opens? = lines.filterMap opens? := by
  rw [List.filterMap_flatMap, List.filterMap_eq_flatMap_toList]
  exact congrArg (fun f => lines.flatMap f) (funext filterMap_opens?_steps)

theorem kind_foldl_next (lines : List Line) (here : Option Place) :
    (lines.foldl next here).map Place.kind =
      (lines.filterMap opens?).getLast?.or (here.map Place.kind) := by
  rw [foldl_next, Step.kind_foldl_next, filterMap_opens?]

end Line

namespace Layout

theorem takes_lines_append {l l' : Layout} {xs ys : List Line} :
    l.Takes ((xs ++ ys).flatMap Line.located) l' ↔
      ∃ m, l.Takes (xs.flatMap Line.located) m ∧ m.Takes (ys.flatMap Line.located) l' := by
  rw [List.flatMap_append, takes_append]

theorem takes_lines_cons {l l' : Layout} {line : Line} {lines : List Line} :
    l.Takes ((line :: lines).flatMap Line.located) l' ↔
      ∃ m, l.Takes line.located m ∧ m.Takes (lines.flatMap Line.located) l' := by
  rw [List.flatMap_cons, takes_append]

theorem Takes.place_line {l l' : Layout} {line : Line} (h : l.Takes line.located l') :
    l'.place = line.next l.place := by
  rw [h.place, Line.map_snd_located]
  rfl

theorem Takes.closed_line {l l' : Layout} {line : Line} (h : l.Takes line.located l')
    (ho : line.opens? = none) : l'.closed = l.closed := by
  refine h.closed_eq fun x hx => ?_
  have hall := line.filterMap_opens?_steps
  rw [ho, Option.toList_none, List.filterMap_eq_nil_iff] at hall
  exact hall x.2 (Line.mem_located.1 hx).2

/-- The labels of a line come first and leave the place and the sections alone. -/
theorem Takes.split_labels {l l' : Layout} {line : Line} (h : l.Takes line.located l') :
    ∃ m, l.Takes ((line.labels.map Step.set).map (line.row, ·)) m ∧
      m.Takes (((line.statement.map Statement.steps).getD []).map (line.row, ·)) l' ∧
      m.place = l.place ∧ m.closed = l.closed := by
  unfold Line.located Line.steps at h
  rw [List.map_append] at h
  obtain ⟨m, h1, h2⟩ := takes_append.1 h
  refine ⟨m, h1, h2, h1.place_eq_self fun _ hs here => Line.next_of_mem_set hs here, ?_⟩
  refine h1.closed_eq fun x hx => ?_
  obtain ⟨s, hs, rfl⟩ := List.mem_map.1 hx
  obtain ⟨n, -, rfl⟩ := List.mem_map.1 hs
  rfl

theorem Takes.closed_of_opens? {l l' : Layout} {line : Line} {k : Section}
    (h : l.Takes line.located l') (ho : line.opens? = some k) :
    l'.closed.toList = l.extents ∧ l'.place = some (.start k) := by
  obtain ⟨m, -, h2, hplace, hclosed⟩ := h.split_labels
  obtain ⟨s, hs, ho⟩ := Option.bind_eq_some_iff.1 ho
  cases s with
  | enter k' =>
    obtain rfl : k' = k := Option.some.inj ho
    rw [hs] at h2
    obtain ⟨-, rfl⟩ := takes_singleton.1 h2
    refine ⟨?_, place_take m (.enter k')⟩
    rw [closed_take_enter, extents_eq, extents_eq, hplace, hclosed]
  | _ => cases ho

theorem Takes.symbol_of_mem_labels {l l' : Layout} {line : Line} {n : String}
    (h : l.Takes line.located l') (hn : n ∈ line.labels) :
    ∃ p s, l.place = some p ∧ l'.symbols.get? n = some s ∧ s.home = some p.kind ∧
      s.offset = p.location := by
  obtain ⟨m, h1, h2, -⟩ := h.split_labels
  obtain ⟨as, bs, hlabels⟩ := List.append_of_mem hn
  rw [hlabels, List.map_append, List.map_append, List.map_cons, List.map_cons] at h1
  obtain ⟨m₁, ha, hb⟩ := takes_append.1 h1
  obtain ⟨hset, hb⟩ := takes_cons.1 hb
  have hplace : m₁.place = l.place :=
    ha.place_eq_self fun _ hs here => Line.next_of_mem_set hs here
  cases hp : l.place with
  | none =>
    rw [hp] at hplace
    simp [refusal?, hplace] at hset
  | some p =>
    obtain ⟨s, hs, hhome, hoffset⟩ := get?_set hset (hplace.trans hp)
    obtain ⟨r, hr, hl⟩ := (hb.grows.trans h2.grows).get? hs
    obtain ⟨h1, h2⟩ := hl.defined (Symbol.isDefined_of_home hhome)
    exact ⟨p, r, rfl, hr, h1.trans hhome, h2.trans hoffset⟩

theorem Takes.kinds_line {l l' : Layout} {line : Line} (h : l.Takes line.located l') :
    l'.extents.map Extent.kind = l.extents.map Extent.kind ++ line.opens?.toList := by
  rw [h.kinds, Line.map_snd_located, Line.filterMap_opens?_steps]

theorem Takes.kinds_lines {l l' : Layout} {lines : List Line}
    (h : l.Takes (lines.flatMap Line.located) l') :
    l'.extents.map Extent.kind = l.extents.map Extent.kind ++ lines.filterMap Line.opens? := by
  induction lines generalizing l with
  | nil =>
    obtain rfl := takes_nil.1 h
    simp
  | cons line lines ih =>
    obtain ⟨m, h1, h2⟩ := takes_lines_cons.1 h
    rw [ih h2, h1.kinds_line, List.append_assoc, List.filterMap_cons]
    cases line.opens? <;> rfl

theorem Takes.nodup_of_lines {l l' : Layout} {lines : List Line}
    (h : l.Takes (lines.flatMap Line.located) l') (hnd : (l'.extents.map Extent.kind).Nodup) :
    (l.extents.map Extent.kind).Nodup := by
  rw [h.kinds_lines] at hnd
  exact (List.nodup_append.1 hnd).1

theorem Takes.kinds_of_start {l : Layout} {t : SymbolTable} {lines : List Line}
    (h : (start t).Takes (lines.flatMap Line.located) l) :
    l.extents.map Extent.kind = lines.filterMap Line.opens? :=
  h.kinds_lines

theorem Takes.closed_lines {l l' : Layout} {lines : List Line}
    (h : l.Takes (lines.flatMap Line.located) l') (ho : ∀ line ∈ lines, line.opens? = none) :
    l'.closed = l.closed := by
  induction lines generalizing l with
  | nil => exact takes_nil.1 h ▸ rfl
  | cons line lines ih =>
    obtain ⟨m, h1, h2⟩ := takes_lines_cons.1 h
    rw [ih h2 fun x hx => ho x (List.mem_cons_of_mem line hx),
      h1.closed_line (ho line List.mem_cons_self)]

/-- A section that is opened is the last one until the next is. -/
theorem Takes.extents_of_opens? {l l' : Layout} {line : Line} {body : List Line} {k : Section}
    (h : l.Takes ((line :: body).flatMap Line.located) l') (ho : line.opens? = some k)
    (hbody : ∀ b ∈ body, b.opens? = none) :
    ∃ p, l'.place = some p ∧ p.kind = k ∧ l'.extents = l.extents ++ [p.extent] := by
  have hkinds := h.kinds_lines
  rw [List.filterMap_cons_some ho, List.filterMap_eq_nil_iff.2 hbody] at hkinds
  obtain ⟨m, h1, h2⟩ := takes_lines_cons.1 h
  have hclosed : l'.closed.toList = l.extents := by
    rw [h2.closed_lines hbody]
    exact (h1.closed_of_opens? ho).1
  rw [extents_eq, hclosed, List.map_append, List.append_cancel_left_eq] at hkinds
  cases hp : l'.place with
  | none =>
    rw [hp] at hkinds
    cases hkinds
  | some p =>
    rw [hp] at hkinds
    have hk : p.kind = k := (List.cons.inj hkinds).1
    refine ⟨p, rfl, hk, ?_⟩
    rw [extents_eq, hclosed, hp]
    rfl

theorem Takes.extents_prefix {l l' : Layout} {lines : List Line}
    (h : l.Takes (lines.flatMap Line.located) l') (ho : ∀ line ∈ lines.head?, line.opens?.isSome) :
    l.extents <+: l'.extents := by
  cases lines with
  | nil =>
    obtain rfl := takes_nil.1 h
    exact List.prefix_refl _
  | cons line lines =>
    obtain ⟨k, hk⟩ := Option.isSome_iff_exists.1 (ho line rfl)
    obtain ⟨m, h1, h2⟩ := takes_lines_cons.1 h
    rw [← (h1.closed_of_opens? hk).1]
    exact h2.closed_prefix.trans (closed_prefix_extents l')

end Layout

namespace Program

theorem steps_eq (p : Program) :
    p.steps = p.lines.flatMap Line.located ++
      (p.fault.map fun f => (f.1, Step.refuse f.2)).toList := rfl

theorem steps_of_fault {p : Program} (h : p.fault = none) :
    p.steps = p.lines.flatMap Line.located := by
  rw [steps_eq, h]
  exact List.append_nil _

/-- The steps of a program are all taken exactly if those of its lines are and nothing cuts the
lines short. -/
theorem takes_steps_iff {p : Program} {l l' : Layout} :
    l.Takes p.steps l' ↔ l.Takes (p.lines.flatMap Line.located) l' ∧ p.fault = none := by
  rw [steps_eq, Layout.takes_append]
  constructor
  · rintro ⟨m, h1, h2⟩
    cases hf : p.fault with
    | none =>
      rw [hf] at h2
      exact ⟨Layout.takes_nil.1 h2 ▸ h1, rfl⟩
    | some f =>
      rw [hf] at h2
      obtain ⟨hr, -⟩ := Layout.takes_cons.1 h2
      cases hr
  · rintro ⟨h1, hf⟩
    rw [hf]
    exact ⟨l', h1, Layout.takes_nil.2 rfl⟩

theorem layout_of_takes {p : Program} {t : SymbolTable} {l : Layout}
    (ht : (Layout.start t).Takes p.steps l) (hu : Layout.unresolved? l.symbols = none) :
    p.layout t = ⟨l.symbols, .ok l.extents⟩ := by
  unfold Layout.Takes at ht
  unfold layout
  dsimp only
  rw [ht]
  dsimp only
  rw [hu]
  rfl

/-- A program is laid out if all its steps are taken and every name is set or global in the end. -/
theorem layout_eq_ok_iff {p : Program} {t : SymbolTable} {sections : List Extent} :
    (p.layout t).sections = .ok sections ↔
      ∃ l, (Layout.start t).Takes p.steps l ∧ Layout.unresolved? l.symbols = none ∧
        sections = l.extents ∧ (p.layout t).symbols = l.symbols := by
  unfold layout Layout.Takes
  dsimp only
  generalize (Layout.start t).run p.steps = r
  obtain ⟨l, fault⟩ := r
  cases fault with
  | some f => simp
  | none =>
    dsimp only
    cases hu : Layout.unresolved? l.symbols with
    | some s =>
      simp only [reduceCtorEq, Prod.mk.injEq, and_true, false_iff]
      rintro ⟨l', rfl, hu', -⟩
      simp [hu] at hu'
    | none =>
      simp only [Except.ok.injEq, Prod.mk.injEq, and_true]
      constructor
      · rintro rfl
        exact ⟨l, rfl, hu, rfl, rfl⟩
      · rintro ⟨l', rfl, -, rfl, -⟩
        rfl

/-! ### Sources -/

variable {source : String} {l : Layout}

theorem wellFormed_of_takes (h : (Layout.start .empty).Takes (ofSource source).steps l) :
    l.WellFormed :=
  Layout.wellFormed_start.takes h fun _ hx _ hn => isValid_of_mem_steps hx hn

theorem numbered_of_takes (h : (Layout.start .empty).Takes (ofSource source).steps l) :
    l.Numbered :=
  Layout.numbered_start.takes h fun _ hx _ hn => isValid_of_mem_steps hx hn

theorem length_users_of_takes (h : (Layout.start .empty).Takes (ofSource source).steps l) :
    l.symbols.users.length = (ofSource source).names.toFinset.card :=
  h.card_names fun _ hx _ hn => isValid_of_mem_steps hx hn

end Program

theorem Layout.isDefined_or_isGlobal {t : SymbolTable} (h : unresolved? t = none) {s : Symbol}
    (hs : s ∈ t.toList) : s.isDefined ∨ s.isGlobal := by
  have := List.find?_eq_none.1 h s hs
  revert this
  cases s.isDefined <;> simp

end SS16
