import SS16.Diagnostic
import SS16.Proofs.Emission.Sweep
import SS16.Proofs.Layout.Stops

/-!
# SS16.Proofs.Diagnosis — a fault is found in a row of the source

Both sweeps find faults in rows that reading has come to, and so does the check for names without a
meaning, since from the empty table on such a name has its entry from a row that uses it.  Main
statements: `Program.reached_of_mem_visited`, `exists_row_of_assemble` and
`diagnostic_of_assemble`.
-/

namespace SS16

/-! ### Rows that reading comes to -/

/-- Whether a row, counted from the first of some rows, is among them and none in front of it ends the
source. -/
structure Text.Reached (rows : List String) (first i : Nat) : Prop where
  lt_length : i < rows.length
  ne_stop : ∀ j < i, ∀ raw line, rows[j]? = some raw → Line.parse (first + j) raw = .ok line →
    line.statement ≠ some .stop

namespace Program

/-- The rows of the lines, and the one that cut them short. -/
def visited (p : Program) : List Nat := p.lines.map Line.row ++ (p.fault.map Prod.fst).toList

theorem reached_of_mem_visited {rows : List String} {first row : Nat}
    (h : row ∈ (ofRows rows first).visited) : ∃ i, row = first + i ∧ Text.Reached rows first i := by
  induction rows generalizing first with
  | nil => cases h
  | cons raw rows ih =>
    have hfirst : Text.Reached (raw :: rows) first 0 :=
      ⟨Nat.succ_pos _, fun j hj => absurd hj (Nat.not_lt_zero j)⟩
    rw [ofRows_cons] at h
    unfold prepend at h
    cases hp : Line.parse first raw with
    | error f =>
      rw [hp] at h
      exact ⟨0, List.mem_singleton.1 h, hfirst⟩
    | ok line =>
      have hrow := Line.row_of_parse hp
      rw [hp] at h
      dsimp only at h
      split_ifs at h with hs
      · exact ⟨0, hrow ▸ List.mem_singleton.1 h, hfirst⟩
      · unfold visited at h
        rw [List.map_cons, List.cons_append, hrow] at h
        rcases List.mem_cons.1 h with rfl | h
        · exact ⟨0, rfl, hfirst⟩
        · obtain ⟨i, rfl, hi⟩ := ih h
          refine ⟨i + 1, by omega, Nat.succ_lt_succ hi.lt_length, fun j hj r l hr hl => ?_⟩
          cases j with
          | zero =>
            obtain rfl := Option.some.inj hr
            obtain rfl := Except.ok.inj (hp.symm.trans hl)
            exact hs
          | succ j =>
            refine hi.ne_stop j (Nat.lt_of_succ_lt_succ hj) r l hr ?_
            rw [Nat.add_assoc, Nat.add_comm 1]
            exact hl

variable {p : Program}

theorem row_mem_visited {line : Line} (h : line ∈ p.lines) : line.row ∈ p.visited :=
  List.mem_append_left _ (List.mem_map_of_mem h)

theorem row_mem_visited_of_mem_steps {x : Nat × Step} (h : x ∈ p.steps) : x.1 ∈ p.visited := by
  rcases List.mem_append.1 h with h | h
  · obtain ⟨line, hline, hx⟩ := List.mem_flatMap.1 h
    rw [(Line.mem_located.1 hx).1]
    exact row_mem_visited hline
  · obtain ⟨f, hf, rfl⟩ := Option.map_eq_some_iff.1 (Option.mem_toList.1 h)
    exact List.mem_append_right _ (Option.mem_toList.2 (by rw [hf]; rfl))

theorem exists_row_of_emit {symbols : SymbolTable} {out : Output} {l : Located}
    (h : (p.emit symbols out).2 = some l) : ∃ row ∈ p.visited, l.row = some row := by
  unfold emit at h
  cases hr : out.emit symbols none p.lines with
  | mk out' r =>
    rw [hr] at h
    cases r with
    | error f =>
      cases h
      obtain ⟨xs, line, ys, -, -, g, hsplit, -, -, rfl⟩ := Output.exists_of_emit_eq_error hr
      exact ⟨line.row, row_mem_visited (hsplit ▸ List.mem_append_right xs List.mem_cons_self), rfl⟩
    | ok there =>
      obtain ⟨f, hf, rfl⟩ := Option.map_eq_some_iff.1 h
      exact ⟨f.1, List.mem_append_right _ (Option.mem_toList.2 (by rw [hf]; rfl)), rfl⟩

end Program

/-! ### Names without a meaning -/

/-- From the empty table on, an entry that is neither defined nor global comes from a step that uses
its name. -/
theorem Layout.Takes.mem_use {xs : List (Nat × Step)} {l : Layout}
    (h : (Layout.start .empty).Takes xs l)
    (hnames : ∀ x ∈ xs, ∀ n, x.2.name? = some n → Identifier.isValid n) {s : Symbol}
    (hs : Layout.unresolved? l.symbols = some s) : Step.use s.name ∈ xs.map Prod.snd := by
  have hmem : s ∈ l.symbols.toList := List.mem_of_find?_eq_some hs
  have hnone : s.isDefined = false ∧ s.isGlobal = false := by
    simpa using List.find?_some hs
  rcases (wellFormed_start.takes h hnames).named s hmem with hv | ⟨k, rfl⟩
  · rcases h.tells hv with ⟨hget, -⟩ | ⟨r, hr, hname, htells⟩
    · rw [SymbolTable.get?_of_mem hmem] at hget
      cases hget
    · obtain rfl := Option.some.inj ((SymbolTable.get?_of_mem hmem).symm.trans hr)
      -- the step that brought the name up neither sets nor shares it
      obtain ⟨t, ht, htn⟩ := List.mem_filterMap.1 hname
      cases t with
      | use n => exact Option.some.inj htn ▸ ht
      | set n =>
        have hd := htells.isDefined.2 (Option.some.inj htn ▸ ht)
        simp [hnone.1] at hd
      | share n =>
        have hg := htells.isGlobal.2 (Option.some.inj htn ▸ ht)
        simp [hnone.2] at hg
      | _ => cases htn
  · cases hnone.1

/-- From the empty table on, a name without a meaning that a step uses is blamed on its first use. -/
theorem Layout.exists_row_unresolvedFault {xs : List (Nat × Step)} {s : Symbol}
    (h : Step.use s.name ∈ xs.map Prod.snd) :
    ∃ x ∈ xs, (unresolvedFault .empty xs s).row = some x.1 := by
  obtain ⟨y, hy, hyn⟩ := List.mem_map.1 h
  have hsome : (xs.find? fun x => x.2 = .use s.name).isSome :=
    List.find?_isSome.2 ⟨y, hy, decide_eq_true hyn⟩
  obtain ⟨x, hx⟩ := Option.isSome_iff_exists.1 hsome
  have hempty : SymbolTable.empty.contains s.name = false := rfl
  refine ⟨x, List.mem_of_find?_eq_some hx, ?_⟩
  unfold unresolvedFault firstUse
  rw [hempty, hx]
  rfl

/-! ### Sources -/

theorem exists_row_of_assemble {source : String} {l : Located} (h : assemble source = .error l) :
    ∃ row ∈ (Program.ofSource source).visited, l.row = some row := by
  unfold assemble Program.assemble at h
  dsimp only at h
  cases hs : ((Program.ofSource source).layout .empty).sections with
  | error f =>
    rw [hs] at h
    cases h
    rcases Program.exists_of_layout_eq_error hs with
      ⟨-, x, hx, g, -, rfl⟩ | ⟨laid, s, ht, hu, rfl⟩
    · exact ⟨x.1, Program.row_mem_visited_of_mem_steps hx, rfl⟩
    · have huse := ht.mem_use (fun _ hx _ hn => Program.isValid_of_mem_steps hx hn) hu
      obtain ⟨x, hx, hrow⟩ := Layout.exists_row_unresolvedFault huse
      exact ⟨x.1, Program.row_mem_visited_of_mem_steps hx, hrow⟩
  | ok sections =>
    rw [hs] at h
    dsimp only at h
    generalize ((Program.ofSource source).layout .empty).symbols = symbols at h
    cases he : (Program.ofSource source).emit symbols .fresh with
    | mk out o =>
      rw [he] at h
      cases o with
      | none => cases h
      | some f =>
        cases h
        exact Program.exists_row_of_emit (by rw [he])

/-- A diagnostic shows the message, the place and the row between two bars, its number from one at the
right edge of four columns. -/
theorem Diagnostic.render_of_getElem? {source : String} {l : Located} {i : Nat} {raw : String}
    (hi : l.row = some i) (hraw : (Text.rows source)[i]? = some raw) (file : String) :
    Diagnostic.render file source l =
      "\x1b[31m\x1b[1merror\x1b[39m\x1b[22m: " ++ l.fault.message ++ "\n" ++
      "     \x1b[34m-->\x1b[39m \x1b[4m" ++ file ++ ":" ++ toString (i + 1) ++ "\x1b[24m\n" ++
      "      \x1b[34m|\x1b[39m\n" ++
      " \x1b[34m" ++ String.ofList (List.replicate (4 - (toString (i + 1)).length) ' ') ++
        toString (i + 1) ++ " |\x1b[39m " ++ raw ++ "\n" ++
      "      \x1b[34m|\x1b[39m\n" := by
  unfold Diagnostic.render Diagnostic.lines
  rw [hi]
  dsimp only
  rw [hraw, ← String.toList_inj]
  simp [Text.unlines, String.join, alarm, arrow, excerpt, bar, Column.right, Column.fill, Style.red,
    Style.bold, Style.plain, Style.light, Style.blue, Style.underline, Style.level]

/-- A source that is refused is refused in one of its rows, which does not stand behind the first one
that ends the source, and the diagnostic shows the number of this row, counted from one, and its
text. -/
theorem diagnostic_of_assemble {source : String} {l : Located} (h : assemble source = .error l) :
    ∃ i raw, l.row = some i ∧ (Text.rows source)[i]? = some raw ∧
      (∀ j < i, ∀ row line, (Text.rows source)[j]? = some row → Line.parse j row = .ok line →
        line.statement ≠ some .stop) ∧
      ∀ file, Diagnostic.render file source l =
        "\x1b[31m\x1b[1merror\x1b[39m\x1b[22m: " ++ l.fault.message ++ "\n" ++
        "     \x1b[34m-->\x1b[39m \x1b[4m" ++ file ++ ":" ++ toString (i + 1) ++ "\x1b[24m\n" ++
        "      \x1b[34m|\x1b[39m\n" ++
        " \x1b[34m" ++ String.ofList (List.replicate (4 - (toString (i + 1)).length) ' ') ++
          toString (i + 1) ++ " |\x1b[39m " ++ raw ++ "\n" ++
        "      \x1b[34m|\x1b[39m\n" := by
  obtain ⟨row, hvisited, hrow⟩ := exists_row_of_assemble h
  obtain ⟨i, rfl, hi⟩ := Program.reached_of_mem_visited hvisited
  rw [Nat.zero_add] at hrow
  have hraw := List.getElem?_eq_getElem hi.lt_length
  refine ⟨i, _, hrow, hraw, fun j hj raw line hr hp => ?_, Diagnostic.render_of_getElem? hrow hraw⟩
  exact hi.ne_stop j hj raw line hr (by rwa [Nat.zero_add])

theorem diagnostic_of_assemble_undefined_name :
    assemble ".text\ncall f\n.end\n.text" = .error ⟨some 1, .undefinedSymbol "f"⟩ ∧
      (∀ j < 1, ∀ row line, (Text.rows ".text\ncall f\n.end\n.text")[j]? = some row →
        Line.parse j row = .ok line → line.statement ≠ some .stop) ∧
      Diagnostic.render "a.s" ".text\ncall f\n.end\n.text" ⟨some 1, .undefinedSymbol "f"⟩ =
        "\x1b[31m\x1b[1merror\x1b[39m\x1b[22m: Undefined symbol: `f` is used but never defined\n" ++
        "     \x1b[34m-->\x1b[39m \x1b[4ma.s:2\x1b[24m\n" ++
        "      \x1b[34m|\x1b[39m\n" ++
        " \x1b[34m   2 |\x1b[39m call f\n" ++
        "      \x1b[34m|\x1b[39m\n" := by
  have h : assemble ".text\ncall f\n.end\n.text" = .error ⟨some 1, .undefinedSymbol "f"⟩ := by
    decide +kernel
  have hraw : (Text.rows ".text\ncall f\n.end\n.text")[1]? = some "call f" := by decide +kernel
  obtain ⟨i, raw, hi, hrow, hstop, hrender⟩ := diagnostic_of_assemble h
  obtain rfl : 1 = i := Option.some.inj hi
  obtain rfl : "call f" = raw := Option.some.inj (hraw.symm.trans hrow)
  exact ⟨h, hstop, (hrender "a.s").trans (by decide +kernel)⟩

end SS16
