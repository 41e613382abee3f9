import SS16.Proofs.Emission.Splitting
import SS16.Proofs.Source.Blocks

/-!
# SS16.Proofs.DataSplitting — a line of data in two lines

A line of data may be written as two lines with its elements between them: the sections, the symbols,
the relocations and the bytes are the same, and so is whether there are any.  Main statements:
`Reads.replace`, `Layout.takes_split_iff` and `assemble_split_data`.
-/

namespace SS16

/-! ### Rows -/

/-- Rows are read as the same lines wherever they stand, but for their numbers. -/
theorem Reads.renumbered {row : Nat} {rows : List String} {lines : List Line}
    (h : Reads row rows lines) (row' : Nat) :
    ∃ lines', Reads row' rows lines' ∧ lines.map Line.unnumbered = lines'.map Line.unnumbered := by
  induction h generalizing row' with
  | nil row => exact ⟨[], .nil row', rfl⟩
  | stop rows h hs =>
    have h' := Line.parse_of_ofRow? (Line.ofRow?_of_parse h) row'
    exact ⟨_, .stop rows h' hs, rfl⟩
  | cons h hs rest ih =>
    have h' := Line.parse_of_ofRow? (Line.ofRow?_of_parse h) row'
    obtain ⟨lines', hrest, hlines⟩ := ih (row' + 1)
    exact ⟨_, .cons h' hs hrest, congrArg (List.cons _) hlines⟩

/-- If rows behind others are replaced, reading stops before them or goes on with their lines. -/
theorem Reads.replace {R : List Line → List Line → Prop} {rest rest' : List String}
    (hrest : ∀ i ls, Reads i rest ls → ∃ ls', Reads i rest' ls' ∧ R ls ls') {row : Nat}
    {xs : List String} {lines : List Line} (h : Reads row (xs ++ rest) lines) :
    Reads row (xs ++ rest') lines ∨
      ∃ as ls ls', lines = as ++ ls ∧ R ls ls' ∧ Reads row (xs ++ rest') (as ++ ls') := by
  induction xs generalizing row lines with
  | nil =>
    obtain ⟨ls', hls', hR⟩ := hrest row lines h
    exact .inr ⟨[], lines, ls', rfl, hR, hls'⟩
  | cons raw xs ih =>
    cases h with
    | stop _ hp hs => exact .inl (.stop _ hp hs)
    | cons hp hs htail =>
      rcases ih htail with hsame | ⟨as, ls, ls', rfl, hR, hnew⟩
      · exact .inl (.cons hp hs hsame)
      · exact .inr ⟨_ :: as, ls, ls', rfl, hR, .cons hp hs hnew⟩

section

variable {w : Width} {a b labels : List String}

/-- Lines that start with a line of data, and the same with its elements on two lines. -/
inductive Line.SplitData (w : Width) (a b labels : List String) : List Line → List Line → Prop
  | intro (i j k : Nat) (ms ms' : List Line)
    (h : ms.map Line.unnumbered = ms'.map Line.unnumbered) :
    SplitData w a b labels (⟨i, labels, some (.data w (a ++ b))⟩ :: ms)
      (⟨j, labels, some (.data w a)⟩ :: ⟨k, [], some (.data w b)⟩ :: ms')

section

variable {raw raw₁ raw₂ : String}
  (hraw : Line.ofRow? raw = some ⟨0, labels, some (.data w (a ++ b))⟩)
  (hraw₁ : Line.ofRow? raw₁ = some ⟨0, labels, some (.data w a)⟩)
  (hraw₂ : Line.ofRow? raw₂ = some ⟨0, [], some (.data w b)⟩)
include hraw hraw₁ hraw₂

theorem Reads.split_data {ys : List String} {i : Nat} {ls : List Line} (h : Reads i (raw :: ys) ls) :
    ∃ ls', Reads i (raw₁ :: raw₂ :: ys) ls' ∧ Line.SplitData w a b labels ls ls' := by
  have hdata := Line.parse_of_ofRow? hraw i
  cases h with
  | stop _ hp hs =>
    obtain rfl := Except.ok.inj (hdata.symm.trans hp)
    cases hs
  | cons hp hs htail =>
    obtain rfl := Except.ok.inj (hdata.symm.trans hp)
    obtain ⟨ms', hms', hsame⟩ := htail.renumbered (i + 1 + 1)
    exact ⟨_, .cons (Line.parse_of_ofRow? hraw₁ i) (by simp)
      (.cons (Line.parse_of_ofRow? hraw₂ (i + 1)) (by simp) hms'), .intro i i (i + 1) _ _ hsame⟩

theorem Reads.join_data {ys : List String} {i : Nat} {ls' : List Line}
    (h : Reads i (raw₁ :: raw₂ :: ys) ls') :
    ∃ ls, Reads i (raw :: ys) ls ∧ Line.SplitData w a b labels ls ls' := by
  have hfirst := Line.parse_of_ofRow? hraw₁ i
  have hsecond := Line.parse_of_ofRow? hraw₂ (i + 1)
  cases h with
  | stop _ hp hs =>
    obtain rfl := Except.ok.inj (hfirst.symm.trans hp)
    cases hs
  | cons hp hs htail =>
    obtain rfl := Except.ok.inj (hfirst.symm.trans hp)
    cases htail with
    | stop _ hp hs =>
      obtain rfl := Except.ok.inj (hsecond.symm.trans hp)
      cases hs
    | cons hp hs htail =>
      obtain rfl := Except.ok.inj (hsecond.symm.trans hp)
      obtain ⟨ms, hms, hsame⟩ := htail.renumbered (i + 1)
      exact ⟨_, .cons (Line.parse_of_ofRow? hraw i) (by simp) hms, .intro i i (i + 1) _ _ hsame.symm⟩

end

/-! ### Lines -/

theorem Layout.takes_two_lines_iff (hsize : (a ++ b).length * w.size < 2 ^ 32) (i j k : Nat)
    {l l' : Layout} :
    l.Takes (Line.mk i labels (some (.data w (a ++ b)))).located l' ↔
      l.Takes ([Line.mk j labels (some (.data w a)), Line.mk k [] (some (.data w b))].flatMap
        Line.located) l' := by
  have hsteps : ([Line.mk j labels (some (.data w a)), Line.mk k [] (some (.data w b))].flatMap
      Line.located).map Prod.snd =
        ((labels.map Step.set).map (i, ·) ++
          ((Statement.data w a).steps ++ (Statement.data w b).steps).map (i, ·)).map Prod.snd := by
    rw [Line.map_snd_flatMap_located]
    simp [Line.steps, Function.comp_def]
  rw [takes_congr hsteps]
  show l.Takes ((labels.map Step.set ++ (Statement.data w (a ++ b)).steps).map (i, ·)) l' ↔ _
  rw [List.map_append]
  exact takes_append_congr (fun _ => takes_data_append hsize i) _

theorem Layout.takes_split_iff (hsize : (a ++ b).length * w.size < 2 ^ 32) {ls ls' : List Line}
    (h : Line.SplitData w a b labels ls ls') (as : List Line) {l l' : Layout} :
    l.Takes ((as ++ ls).flatMap Line.located) l' ↔
      l.Takes ((as ++ ls').flatMap Line.located) l' := by
  obtain ⟨i, j, k, ms, ms', hms⟩ := h
  have htwo : Line.mk j labels (some (.data w a)) :: Line.mk k [] (some (.data w b)) :: ms' =
      [Line.mk j labels (some (.data w a)), Line.mk k [] (some (.data w b))] ++ ms' := rfl
  rw [takes_lines_append, takes_lines_append]
  refine exists_congr fun m => and_congr_right fun _ => ?_
  rw [takes_lines_cons, htwo, takes_lines_append]
  refine exists_congr fun n => and_congr (takes_two_lines_iff hsize i j k) ?_
  rw [takes_unnumbered rfl, hms, ← takes_unnumbered rfl]

theorem Program.assemble_splitData {ls ls' : List Line} (h : Line.SplitData w a b labels ls ls')
    (as : List Line) (o : Object) :
    (∃ x, (Program.mk (as ++ ls) none).assemble = .ok x ∧ x.object = o) ↔
      ∃ x, (Program.mk (as ++ ls') none).assemble = .ok x ∧ x.object = o := by
  have htakes := fun (hsize : (a ++ b).length * w.size < UInt16.size) {l l' : Layout} =>
    @Layout.takes_split_iff w a b labels (hsize.trans (by decide)) ls ls' h as l l'
  obtain ⟨i, j, k, ms, ms', hms⟩ := h
  have hline : (Line.mk i labels (some (.data w (a ++ b)))).statement = _ := rfl
  have hfirst : (Line.mk j labels (some (.data w a))).statement = _ := rfl
  have hsecond : (Line.mk k [] (some (.data w b))).statement = _ := rfl
  have hstatements : ms.map Line.statement = ms'.map Line.statement := by
    rw [← Line.map_statement_unnumbered, hms, Line.map_statement_unnumbered]
  constructor
  · rintro ⟨x, hx, rfl⟩
    obtain ⟨l, out, there, ht, -, hu, he, rfl⟩ := assemble_eq_ok_iff.1 hx
    obtain ⟨hsize, out', he', hsame⟩ :=
      he.split hline hfirst hsecond rfl hstatements (Output.sameContents_refl _)
    refine ⟨_, assemble_eq_ok_iff.2 ⟨l, out', there, (htakes hsize).1 ht, rfl, hu, he', rfl⟩, ?_⟩
    exact congrArg₂ (Object.mk l.extents l.symbols) hsame.relocations.symm hsame.code.symm
  · rintro ⟨x, hx, rfl⟩
    obtain ⟨l, out, there, ht, -, hu, he, rfl⟩ := assemble_eq_ok_iff.1 hx
    obtain ⟨hsize, out', he', hsame⟩ :=
      he.joined hline hfirst hsecond rfl hstatements.symm (Output.sameContents_refl _)
    refine ⟨_, assemble_eq_ok_iff.2 ⟨l, out', there, (htakes hsize).2 ht, rfl, hu, he', rfl⟩, ?_⟩
    exact congrArg₂ (Object.mk l.extents l.symbols) hsame.relocations.symm hsame.code.symm

/-! ### Sources -/

/-- Rows are assembled if all of them that are read are lines, and these are assembled. -/
theorem Program.assemble_ofRows_eq_ok_iff {rows : List String} {row : Nat} {x : Assembly} :
    (ofRows rows row).assemble = .ok x ↔
      ∃ lines, Reads row rows lines ∧ (Program.mk lines none).assemble = .ok x := by
  constructor
  · intro h
    obtain ⟨-, -, -, -, hfault, -⟩ := assemble_eq_ok_iff.1 h
    have hrows : ofRows rows row = ⟨(ofRows rows row).lines, none⟩ := by rw [← hfault]
    exact ⟨_, ofRows_eq_iff.1 hrows, hrows ▸ h⟩
  · rintro ⟨lines, hreads, h⟩
    rw [ofRows_eq_iff.2 hreads]
    exact h

/-- A line of data may be written as two lines.  If a source has a row of data and another source, in
its place, two rows with the same directive and the elements of that row between them, the labels on
the first one, both are assembled to the same objects: one is refused if the other one is, and
sections, symbols, relocations and code are equal if it is not. -/
theorem assemble_split_data {source source' : String} {xs ys : List String} {raw raw₁ raw₂ : String}
    (hrows : Text.rows source = xs ++ raw :: ys)
    (hrows' : Text.rows source' = xs ++ raw₁ :: raw₂ :: ys)
    (hraw : Line.ofRow? raw = some ⟨0, labels, some (.data w (a ++ b))⟩)
    (hraw₁ : Line.ofRow? raw₁ = some ⟨0, labels, some (.data w a)⟩)
    (hraw₂ : Line.ofRow? raw₂ = some ⟨0, [], some (.data w b)⟩) (o : Object) :
    (∃ x, assemble source = .ok x ∧ x.object = o) ↔
      ∃ x, assemble source' = .ok x ∧ x.object = o := by
  unfold assemble Program.ofSource
  rw [hrows, hrows']
  simp only [Program.assemble_ofRows_eq_ok_iff]
  constructor
  · rintro ⟨x, ⟨lines, hreads, hx⟩, ho⟩
    rcases hreads.replace (fun _ _ h => h.split_data hraw hraw₁ hraw₂) with
      hsame | ⟨as, ls, ls', rfl, hsplit, hnew⟩
    · -- the source ends in front of the data
      exact ⟨x, ⟨lines, hsame, hx⟩, ho⟩
    · obtain ⟨x', hx', ho'⟩ := (Program.assemble_splitData hsplit as o).1 ⟨x, hx, ho⟩
      exact ⟨x', ⟨_, hnew, hx'⟩, ho'⟩
  · rintro ⟨x, ⟨lines, hreads, hx⟩, ho⟩
    rcases hreads.replace (R := fun ls' ls => Line.SplitData w a b labels ls ls')
      (fun _ _ h => h.join_data hraw hraw₁ hraw₂) with
      hsame | ⟨as, ls', ls, rfl, hsplit, hnew⟩
    · exact ⟨x, ⟨lines, hsame, hx⟩, ho⟩
    · obtain ⟨x', hx', ho'⟩ := (Program.assemble_splitData hsplit as o).2 ⟨x, hx, ho⟩
      exact ⟨x', ⟨_, hnew, hx'⟩, ho'⟩

end

theorem assemble_split_data_forward_reference :
    ∃ x x', assemble ".data\nx: .word y, -1, x ; z\ny: .char 1\n" = .ok x ∧
      assemble ".data\nx: .word y\n.word -1 x\ny: .char 1\n" = .ok x' ∧
      x'.object = x.object ∧ x'.listing ≠ x.listing := by
  have hrows : Text.rows ".data\nx: .word y, -1, x ; z\ny: .char 1\n" =
      [".data"] ++ "x: .word y, -1, x ; z" :: ["y: .char 1"] := by decide +kernel
  have hrows' : Text.rows ".data\nx: .word y\n.word -1 x\ny: .char 1\n" =
      [".data"] ++ "x: .word y" :: ".word -1 x" :: ["y: .char 1"] := by decide +kernel
  have hraw : Line.ofRow? "x: .word y, -1, x ; z" =
      some ⟨0, ["x"], some (.data .word (["y"] ++ ["-1", "x"]))⟩ := by decide +kernel
  have hraw₁ : Line.ofRow? "x: .word y" = some ⟨0, ["x"], some (.data .word ["y"])⟩ := by
    decide +kernel
  have hraw₂ : Line.ofRow? ".word -1 x" = some ⟨0, [], some (.data .word ["-1", "x"])⟩ := by
    decide +kernel
  have hlisting : (assemble ".data\nx: .word y\n.word -1 x\ny: .char 1\n").toOption.map
        Assembly.listing ≠
      (assemble ".data\nx: .word y, -1, x ; z\ny: .char 1\n").toOption.map Assembly.listing := by
    decide +kernel
  obtain ⟨x, hx⟩ := Results.exists_of_isSome
    (x := assemble ".data\nx: .word y, -1, x ; z\ny: .char 1\n") (by decide +kernel)
  obtain ⟨x', hx', hobject⟩ :=
    (assemble_split_data hrows hrows' hraw hraw₁ hraw₂ x.object).1 ⟨x, hx, rfl⟩
  rw [hx, hx'] at hlisting
  exact ⟨x, x', hx, hx', hobject, fun he => hlisting (congrArg some he)⟩

end SS16
