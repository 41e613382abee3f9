import SS16.Proofs.Shorthands.Instructions

/-!
# SS16.Proofs.Shorthands — shorthands can be written out anywhere

A source in which some shorthands are written out is assembled to the same object and listing, or
refused in the same row for the same fault, which may speak of the operation by its other name.  Both
sweeps are followed line by line.  Main statements: `Layout.run_alike`, `Output.emit_alike` and
`assemble_written_out`.
-/

namespace SS16

/-! ### Faults -/

/-- The same fault, but for the name of an operation that may be written out. -/
inductive Fault.Alike : Fault → Fault → Prop
  | same (f : Fault) : Alike f f
  | outsideSection {m m' : Mnemonic} {args args' : List String} (h : m.Expands args m' args') :
    Alike (.outsideSection m.text) (.outsideSection m'.text)

structure Located.Alike (l l' : Located) : Prop where
  row : l'.row = l.row
  fault : l.fault.Alike l'.fault

/-- The same result, or faults that are related. -/
inductive Results.Agree {ε α : Type} (R : ε → ε → Prop) : Except ε α → Except ε α → Prop
  | ok (a : α) : Agree R (.ok a) (.ok a)
  | error {e e' : ε} (h : R e e') : Agree R (.error e) (.error e')

theorem Located.Alike.refl (l : Located) : l.Alike l := ⟨rfl, .same _⟩

theorem Results.Agree.refl {ε α : Type} {R : ε → ε → Prop} (hR : ∀ e, R e e) (x : Except ε α) :
    Agree R x x := by
  cases x with
  | error e => exact .error (hR e)
  | ok a => exact .ok a

/-! ### The first sweep -/

inductive Step.Alike : Nat × Step → Nat × Step → Prop
  | same (s : Nat × Step) : Alike s s
  | require (row : Nat) {m m' : Mnemonic} {args args' : List String} (h : m.Expands args m' args') :
    Alike (row, .require m.text) (row, .require m'.text)

theorem Line.Alike.steps {line line' : Line} (h : line.Alike line') :
    List.Forall₂ Step.Alike (line.steps.map fun s => (line.row, s))
      (line'.steps.map fun s => (line'.row, s)) := by
  cases h with
  | same => exact List.forall₂_same.2 fun s _ => .same s
  | @instruction row labels args args' m m' h =>
    have hsteps : (Line.steps ⟨row, labels, some (.instruction m args)⟩) =
        labels.map .set ++ .require m.text :: Statement.operandSteps args := rfl
    have hsteps' : (Line.steps ⟨row, labels, some (.instruction m' args')⟩) =
        labels.map .set ++ .require m'.text :: Statement.operandSteps args := by
      rw [← h.operandSteps_eq]
      rfl
    rw [hsteps, hsteps', List.map_append, List.map_append, List.map_cons, List.map_cons]
    exact List.rel_append (List.forall₂_same.2 fun s _ => .same s)
      (.cons (.require row h) (List.forall₂_same.2 fun s _ => .same s))

namespace Layout

theorem run_alike {steps steps' : List (Nat × Step)} (h : List.Forall₂ Step.Alike steps steps')
    (l : Layout) :
    (l.run steps').1 = (l.run steps).1 ∧
      Option.Rel Located.Alike (l.run steps).2 (l.run steps').2 := by
  induction h generalizing l with
  | nil => exact ⟨rfl, .none⟩
  | @cons s s' steps steps' hs _ ih =>
    cases hs with
    | same =>
      obtain ⟨row, s⟩ := s
      unfold run
      cases l.refusal? s with
      | some f => exact ⟨rfl, .some (.refl _)⟩
      | none => exact ih (l.take s)
    | require row h =>
      unfold run refusal?
      dsimp only
      by_cases hp : l.place.isSome
      · rw [if_pos hp, if_pos hp]
        exact ih l
      · rw [if_neg hp, if_neg hp]
        exact ⟨rfl, .some ⟨rfl, .outsideSection h⟩⟩

theorem firstUse_alike {steps steps' : List (Nat × Step)}
    (h : List.Forall₂ Step.Alike steps steps') (name : String) :
    firstUse steps' name = firstUse steps name := by
  unfold firstUse
  induction h with
  | nil => rfl
  | @cons s s' steps steps' hs _ ih =>
    cases hs with
    | same =>
      rw [List.find?_cons, List.find?_cons]
      split
      · rfl
      · exact ih
    | require row h =>
      rw [List.find?_cons_of_neg (by simp), List.find?_cons_of_neg (by simp)]
      exact ih

end Layout

/-! ### The second sweep -/

theorem Line.Alike.effect {line line' : Line} (h : line.Alike line') (symbols : SymbolTable)
    (here : Option Place) :
    (line'.effect symbols here).relocations = (line.effect symbols here).relocations ∧
      Results.Agree Fault.Alike (line.effect symbols here).outcome
        (line'.effect symbols here).outcome := by
  cases h with
  | same => exact ⟨rfl, .refl .same _⟩
  | @instruction row labels args args' m m' h =>
    cases here with
    | none => exact ⟨rfl, .error (.outsideSection h)⟩
    | some p =>
      have hfragment : Statement.fragment symbols p (.instruction m' args') =
          Statement.fragment symbols p (.instruction m args) := by
        unfold Statement.fragment
        dsimp only
        rw [h.encode_eq]
      have heffect : Line.effect symbols (some p) ⟨row, labels, some (.instruction m' args')⟩ =
          Line.effect symbols (some p) ⟨row, labels, some (.instruction m args)⟩ :=
        congrArg (Effect.lay row p) hfragment
      rw [heffect]
      exact ⟨rfl, .refl .same _⟩

theorem Line.Alike.row_eq {line line' : Line} (h : line.Alike line') : line'.row = line.row := by
  cases h <;> rfl

theorem Output.emit_alike {lines lines' : List Line} (h : List.Forall₂ Line.Alike lines lines')
    (symbols : SymbolTable) (out : Output) (here : Option Place) :
    (out.emit symbols here lines').1 = (out.emit symbols here lines).1 ∧
      Results.Agree Located.Alike (out.emit symbols here lines).2
        (out.emit symbols here lines').2 := by
  induction h generalizing out here with
  | nil => exact ⟨rfl, .ok here⟩
  | @cons line line' lines lines' hline _ ih =>
    obtain ⟨hrelocations, houtcome⟩ := hline.effect symbols here
    unfold emit
    dsimp only
    rw [hrelocations]
    generalize (line.effect symbols here).outcome = x at houtcome
    generalize (line'.effect symbols here).outcome = x' at houtcome
    cases houtcome with
    | ok a => exact ih _ _
    | error hf => exact ⟨rfl, .error ⟨congrArg some hline.row_eq, hf⟩⟩

/-! ### Programs -/

namespace Program

/-- Programs with lines that are alike, cut short in the same way if at all. -/
structure Alike (p p' : Program) : Prop where
  lines : List.Forall₂ Line.Alike p.lines p'.lines
  fault : p'.fault = p.fault

variable {p p' : Program}

theorem Alike.steps (h : p.Alike p') : List.Forall₂ Step.Alike p.steps p'.steps := by
  unfold Program.steps
  rw [h.fault]
  refine List.rel_append ?_ (List.forall₂_same.2 fun s _ => .same s)
  exact List.rel_flatMap h.lines fun line line' hline => hline.steps

theorem Alike.layout (h : p.Alike p') (symbols : SymbolTable) :
    (p'.layout symbols).symbols = (p.layout symbols).symbols ∧
      Results.Agree Located.Alike (p.layout symbols).sections (p'.layout symbols).sections := by
  obtain ⟨hlayout, hfault⟩ := Layout.run_alike h.steps (.start symbols)
  have huse := Layout.firstUse_alike h.steps
  unfold Program.layout
  dsimp only
  generalize (Layout.start symbols).run p.steps = x at hlayout hfault
  generalize (Layout.start symbols).run p'.steps = x' at hlayout hfault
  obtain ⟨l, fault⟩ := x
  obtain ⟨l', fault'⟩ := x'
  obtain rfl : l' = l := hlayout
  cases hfault with
  | some hf => exact ⟨rfl, .error hf⟩
  | none =>
    dsimp only
    cases Layout.unresolved? l'.symbols with
    | none => exact ⟨rfl, .ok _⟩
    | some s =>
      refine ⟨rfl, ?_⟩
      unfold Layout.unresolvedFault
      dsimp only
      rw [huse]
      exact .error (.refl _)

theorem Alike.emit (h : p.Alike p') (symbols : SymbolTable) (out : Output) :
    (p'.emit symbols out).1 = (p.emit symbols out).1 ∧
      Option.Rel Located.Alike (p.emit symbols out).2 (p'.emit symbols out).2 := by
  obtain ⟨hout, hfault⟩ := Output.emit_alike h.lines symbols out none
  unfold Program.emit
  rw [h.fault]
  generalize out.emit symbols none p.lines = x at hout hfault
  generalize out.emit symbols none p'.lines = x' at hout hfault
  obtain ⟨o, r⟩ := x
  obtain ⟨o', r'⟩ := x'
  obtain rfl : o' = o := hout
  cases hfault with
  | error hf => exact ⟨rfl, .some hf⟩
  | ok there =>
    refine ⟨rfl, ?_⟩
    cases p.fault with
    | none => exact .none
    | some f => exact .some (.refl _)

theorem Alike.assemble (h : p.Alike p') :
    Results.Agree Located.Alike p.assemble p'.assemble := by
  obtain ⟨hsymbols, hsections⟩ := h.layout .empty
  obtain ⟨hout, hfault⟩ := h.emit (p.layout .empty).symbols .fresh
  unfold Program.assemble
  dsimp only
  rw [hsymbols]
  generalize (p.layout .empty).sections = x at hsections
  generalize (p'.layout .empty).sections = x' at hsections
  cases hsections with
  | error hl => exact .error hl
  | ok sections =>
    generalize p.emit (p.layout .empty).symbols .fresh = y at hout hfault
    generalize p'.emit (p.layout .empty).symbols .fresh = y' at hout hfault
    obtain ⟨out, fault⟩ := y
    obtain ⟨out', fault'⟩ := y'
    obtain rfl : out' = out := hout
    cases hfault with
    | some hl => exact .error hl
    | none => exact .ok _

theorem Alike.prepend (h : p.Alike p') {raw raw' : String}
    (hrow : Line.WrittenOut (Text.codeWords raw) (Text.codeWords raw')) (row : Nat) :
    (prepend raw row p).Alike (prepend raw' row p') := by
  unfold Program.prepend
  rcases hrow.parse row with heq | ⟨line, line', hline, hline', halike⟩
  · rw [heq]
    cases Line.parse row raw with
    | error f => exact ⟨.nil, rfl⟩
    | ok line =>
      dsimp only
      split_ifs
      · exact ⟨.cons (.same line) .nil, rfl⟩
      · exact ⟨.cons (.same line) h.lines, h.fault⟩
  · rw [hline, hline']
    dsimp only
    cases halike with
    | same =>
      split_ifs
      · exact ⟨.cons (.same line) .nil, rfl⟩
      · exact ⟨.cons (.same line) h.lines, h.fault⟩
    | instruction hm => exact ⟨.cons (.instruction hm) h.lines, h.fault⟩

theorem alike_ofRows {rows rows' : List String}
    (h : List.Forall₂ Line.WrittenOut (rows.map Text.codeWords) (rows'.map Text.codeWords))
    (first : Nat) : (ofRows rows first).Alike (ofRows rows' first) := by
  rw [List.forall₂_map_left_iff, List.forall₂_map_right_iff] at h
  induction h generalizing first with
  | nil => exact ⟨.nil, rfl⟩
  | cons hrow _ ih => exact (ih (first + 1)).prepend hrow first

end Program

/-- Shorthands can be written out in any rows of a source.  Either both sources are assembled, to the
same object and listing, or both are refused in the same row for the same fault, but for the name of
the operation in it. -/
theorem assemble_written_out {source source' : String}
    (h : List.Forall₂ Line.WrittenOut ((Text.rows source).map Text.codeWords)
      ((Text.rows source').map Text.codeWords)) :
    (∃ a, assemble source = .ok a ∧ assemble source' = .ok a) ∨
      ∃ l l', assemble source = .error l ∧ assemble source' = .error l' ∧ l'.row = l.row ∧
        l.fault.Alike l'.fault := by
  have hagree : Results.Agree Located.Alike (assemble source) (assemble source') :=
    (Program.alike_ofRows h 0).assemble
  generalize assemble source = x at hagree
  generalize assemble source' = x' at hagree
  cases hagree with
  | ok a => exact .inl ⟨a, rfl, rfl⟩
  | error hl => exact .inr ⟨_, _, rfl, rfl, hl.row, hl.fault⟩

theorem assemble_written_out_jumps_and_return :
    (∃ a, assemble ".text\nf: eqjmp $f ; again\njmp r1\nret" = .ok a ∧
      assemble ".text\nf: eqadd pc, $f\nmov pc, r1\nret" = .ok a) ∧
    ∃ l l', assemble "neret" = .error l ∧ assemble "nepop pc" = .error l' ∧ l'.row = l.row ∧
      l'.fault ≠ l.fault := by
  have hjumps : List.Forall₂ Line.WrittenOut
      ((Text.rows ".text\nf: eqjmp $f ; again\njmp r1\nret").map Text.codeWords)
      ((Text.rows ".text\nf: eqadd pc, $f\nmov pc, r1\nret").map Text.codeWords) := by
    have hwords : (Text.rows ".text\nf: eqjmp $f ; again\njmp r1\nret").map Text.codeWords =
        [[".text"], ["f:"] ++ (Condition.equal.name ++ Operation.jmp.name) :: ["$f"],
          [] ++ ("" ++ Operation.jmp.name) :: ["r1"], ["ret"]] := by
      decide +kernel
    have hwords' : (Text.rows ".text\nf: eqadd pc, $f\nmov pc, r1\nret").map Text.codeWords =
        [[".text"],
          ["f:"] ++ (Condition.equal.name ++ (Operation.machine .add).name) :: ["pc", "$f"],
          [] ++ ("" ++ (Operation.machine .mov).name) :: ["pc", "r1"], ["ret"]] := by
      decide +kernel
    rw [hwords, hwords']
    refine .cons (.same _) (.cons ?_ (.cons ?_ (.cons (.same _) .nil)))
    · exact .instruction (by decide) (.named .equal) (.jumpBy .equal (by decide))
    · exact .instruction (by decide) .bare (.jumpTo .always (by decide))
  have hreturn : List.Forall₂ Line.WrittenOut ((Text.rows "neret").map Text.codeWords)
      ((Text.rows "nepop pc").map Text.codeWords) := by
    have hwords : (Text.rows "neret").map Text.codeWords =
        [[] ++ (Condition.notEqual.name ++ Operation.ret.name) :: []] := by
      decide +kernel
    have hwords' : (Text.rows "nepop pc").map Text.codeWords =
        [[] ++ (Condition.notEqual.name ++ (Operation.machine .pop).name) :: ["pc"]] := by
      decide +kernel
    rw [hwords, hwords']
    exact .cons (.instruction (by decide) (.named .notEqual) (.ret .notEqual)) .nil
  constructor
  · rcases assemble_written_out hjumps with ha | ⟨l, -, hl, -⟩
    · exact ha
    · obtain ⟨a, ha⟩ := Results.exists_of_isSome
        (x := assemble ".text\nf: eqjmp $f ; again\njmp r1\nret") (by decide +kernel)
      cases ha.symm.trans hl
  · have hrefused : assemble "neret" = .error ⟨some 0, .outsideSection "neret"⟩ := by
      decide +kernel
    have hrefused' : assemble "nepop pc" = .error ⟨some 0, .outsideSection "nepop"⟩ := by
      decide +kernel
    rcases assemble_written_out hreturn with ⟨a, ha, -⟩ | ⟨l, l', hl, hl', hrow, -⟩
    · cases ha.symm.trans hrefused
    · refine ⟨l, l', hl, hl', hrow, ?_⟩
      cases hl.symm.trans hrefused
      cases hl'.symm.trans hrefused'
      decide

end SS16
