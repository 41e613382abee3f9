import SS16.Assembly
import SS16.Proofs.Results
import SS16.Proofs.Source.Spacing

/-!
# SS16.Proofs.RowSpacing — the space in a row does not matter

Rows are read by their words alone.  So a source in which words are spaced in another way, or
comments are changed, is assembled to the same object and listing or refused in the same row for the
same fault, even if the last row comes up or goes away with its comment.  Main statements:
`Program.ofRows_congr`, `assemble_eq_pieces` and `assemble_respaced`.
-/

namespace SS16

namespace Text

/-- The texts between line feeds, in front of the first one and behind the last one too. -/
def pieces (text : String) : List String := (text.toList.splitOn '\n').map String.ofList

theorem not_mem_of_mem_pieces {text : String} : ∀ raw ∈ pieces text, '\n' ∉ raw.toList := by
  intro raw hraw hmem
  obtain ⟨cs, hcs, rfl⟩ := List.mem_map.1 hraw
  rw [String.toList_ofList] at hmem
  rw [List.splitOn_eq_splitOnP] at hcs
  exact absurd (of_mem_splitOnP hcs hmem).2 (by decide)

theorem forall₂_sameWords_pieces_iff {text text' : String} :
    List.Forall₂ SameWords (pieces text) (pieces text') ↔
      (pieces text).map codeWords = (pieces text').map codeWords :=
  forall₂_sameWords_iff not_mem_of_mem_pieces not_mem_of_mem_pieces

end Text

/-! ### Rows -/

namespace Program

variable {rows rows' : List String} {raw : String}

theorem ofRows_congr (h : rows.map Text.codeWords = rows'.map Text.codeWords) (first : Nat) :
    ofRows rows first = ofRows rows' first := by
  induction rows generalizing rows' first with
  | nil => rw [List.map_eq_nil_iff.1 h.symm]
  | cons raw rows ih =>
    obtain ⟨raw', rows', rfl, hraw, hrest⟩ := List.map_eq_cons_iff.1 h.symm
    rw [ofRows_cons, ofRows_cons, ih hrest.symm]
    unfold prepend Line.parse
    rw [hraw]

theorem ofRows_concat {labels : List String} {s : Option Statement}
    (h : ∀ row, Line.parse row raw = .ok ⟨row, labels, s⟩) (rows : List String) (first : Nat) :
    ofRows (rows ++ [raw]) first = ofRows rows first ∨
      ∃ row, (ofRows rows first).fault = none ∧
        ofRows (rows ++ [raw]) first = ⟨(ofRows rows first).lines ++ [⟨row, labels, s⟩], none⟩ := by
  induction rows generalizing first with
  | nil =>
    refine .inr ⟨first, rfl, ?_⟩
    rw [List.nil_append, ofRows_cons]
    unfold prepend
    rw [h]
    dsimp only
    split_ifs <;> rfl
  | cons raw' rows ih =>
    rw [List.cons_append, ofRows_cons, ofRows_cons]
    rcases ih (first + 1) with heq | ⟨row, hfault, heq⟩
    · rw [heq]
      exact .inl rfl
    · rw [heq]
      unfold prepend
      cases Line.parse first raw' with
      | error f => exact .inl rfl
      | ok line =>
        dsimp only
        split_ifs
        · exact .inl rfl
        · exact .inr ⟨row, hfault, rfl⟩

/-- A line at the end that is empty or ends the source asks for nothing and lays nothing down. -/
theorem assemble_concat_idle {s : Option Statement} (hs : s = none ∨ s = some .stop)
    (lines : List Line) (row : Nat) :
    (Program.mk (lines ++ [⟨row, [], s⟩]) none).assemble = (Program.mk lines none).assemble := by
  have hsteps : (Program.mk (lines ++ [⟨row, [], s⟩]) none).steps =
      (Program.mk lines none).steps := by
    unfold steps
    rw [List.flatMap_append]
    rcases hs with rfl | rfl <;> exact congrArg (· ++ _) (List.append_nil _)
  have hlayout : (Program.mk (lines ++ [⟨row, [], s⟩]) none).layout =
      (Program.mk lines none).layout := by
    unfold layout
    rw [hsteps]
  have hemit : (Program.mk (lines ++ [⟨row, [], s⟩]) none).emit =
      (Program.mk lines none).emit := by
    funext symbols out
    unfold emit
    rw [Output.emit_append]
    generalize out.emit symbols none lines = r
    obtain ⟨out, l | there⟩ := r
    · rfl
    · rcases hs with rfl | rfl <;> cases there <;> rfl
  unfold assemble
  rw [hlayout, hemit]

theorem assemble_ofRows_concat_idle {s : Option Statement} (hs : s = none ∨ s = some .stop)
    (h : ∀ row, Line.parse row raw = .ok ⟨row, [], s⟩) (rows : List String) (first : Nat) :
    (ofRows (rows ++ [raw]) first).assemble = (ofRows rows first).assemble := by
  rcases ofRows_concat h rows first with heq | ⟨row, hfault, heq⟩
  · rw [heq]
  · rw [heq, assemble_concat_idle hs, ← hfault]

end Program

theorem assemble_eq_pieces (source : String) :
    assemble source = (Program.ofRows (Text.pieces source) 0).assemble := by
  have hwords := Text.map_codeWords_rows source
  obtain ⟨init, last, hsplit⟩ : ∃ init last, source.toList.splitOn '\n' = init ++ [last] :=
    ⟨_, _, (List.dropLast_append_getLast (List.splitOn_ne_nil _ _)).symm⟩
  unfold assemble Program.ofSource Text.pieces
  rw [hsplit, List.dropLast_concat, List.getLast?_concat] at hwords
  rw [hsplit]
  cases hlast : last.isEmpty with
  | false =>
    have hsame : (Text.rows source).map Text.codeWords =
        ((init ++ [last]).map String.ofList).map Text.codeWords := by
      rw [hwords, List.map_map]
      simp [Option.filter, hlast]
    rw [Program.ofRows_congr hsame]
  | true =>
    obtain rfl := List.isEmpty_iff.1 hlast
    have hsame : (Text.rows source).map Text.codeWords =
        (init.map String.ofList).map Text.codeWords := by
      rw [hwords, List.map_map]
      simp [Option.filter]
    rw [Program.ofRows_congr hsame, List.map_append, List.map_singleton,
      Program.assemble_ofRows_concat_idle (.inl rfl) fun row => rfl]

/-- The space in rows is irrelevant.  Every row is written with words, and if the rows of a source
are written with the same words in other ways, with other gaps around them and other comments behind
them, the outcome is the same: an equal object and listing, or an equal fault in the same row. -/
theorem assemble_respaced (source : String) :
    (∀ raw ∈ Text.pieces source, Text.SameWords raw raw) ∧
      ∀ source', List.Forall₂ Text.SameWords (Text.pieces source) (Text.pieces source') →
        assemble source' = assemble source := by
  constructor
  · intro raw hraw
    obtain ⟨ws, hws⟩ := Text.exists_writes (Text.not_mem_of_mem_pieces raw hraw)
    exact ⟨ws, hws, hws⟩
  · intro source' h
    rw [assemble_eq_pieces, assemble_eq_pieces,
      Program.ofRows_congr (Text.forall₂_sameWords_pieces_iff.1 h)]

theorem assemble_respaced_gaps_and_comments :
    (∃ a, assemble ".global g\n.text\nf: add r1, 5 ; sum\ncall g\n" = .ok a ∧
      assemble ",.global\tg\r\n.text; a: b ; c\n\u3000f:\u00a0add,,r1 5\ncall, g;\n; end" =
        .ok a) ∧
    ∃ l, assemble ".text\nf: add r1, 5, 7" = .error l ∧
      assemble ".text;\r\n f:\tadd r1 5 7;f:" = .error l := by
  constructor
  · obtain ⟨a, ha⟩ := Results.exists_of_isSome
      (x := assemble ".global g\n.text\nf: add r1, 5 ; sum\ncall g\n") (by decide +kernel)
    have hsame := (assemble_respaced ".global g\n.text\nf: add r1, 5 ; sum\ncall g\n").2
      ",.global\tg\r\n.text; a: b ; c\n\u3000f:\u00a0add,,r1 5\ncall, g;\n; end"
      (Text.forall₂_sameWords_pieces_iff.2 (by decide +kernel))
    exact ⟨a, ha, hsame.trans ha⟩
  · have hl : assemble ".text\nf: add r1, 5, 7" =
        .error ⟨some 1, .arity ⟨.always, .machine .add⟩ 3⟩ := by
      decide +kernel
    have hsame := (assemble_respaced ".text\nf: add r1, 5, 7").2 ".text;\r\n f:\tadd r1 5 7;f:"
      (Text.forall₂_sameWords_pieces_iff.2 (by decide +kernel))
    exact ⟨_, hl, hsame.trans hl⟩

end SS16
