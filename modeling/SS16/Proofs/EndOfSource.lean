import SS16.Proofs.RowSpacing
import SS16.Proofs.Source.Fronts

/-!
# SS16.Proofs.EndOfSource — nothing behind `.end` matters

Reading stops at a row that ends the source, so a source is assembled as its front up to that row is,
whatever follows, and as the rows in front of that row are if it has no label.  Main statements:
`Program.ofRows_append_of_stop`, `assemble_append_of_stop` and `assemble_behind_stop`.
-/

namespace SS16

/-! ### Rows -/

def Text.IsStop (raw : String) : Prop :=
  ∃ line, Line.ofRow? raw = some line ∧ line.statement = some .stop

theorem Text.IsStop.congr {raw raw' : String} (h : IsStop raw)
    (hwords : codeWords raw = codeWords raw') : IsStop raw' := by
  unfold IsStop Line.ofRow? Line.parse at h ⊢
  rwa [← hwords]

namespace Program

theorem ofRows_append_of_stop {rows : List String} {raw : String} (hraw : raw ∈ rows)
    (hstop : Text.IsStop raw) (more : List String) (first : Nat) :
    ofRows (rows ++ more) first = ofRows rows first := by
  induction rows generalizing first with
  | nil => cases hraw
  | cons raw' rows ih =>
    rw [List.cons_append, ofRows_cons, ofRows_cons]
    rcases List.mem_cons.1 hraw with rfl | hraw
    · obtain ⟨line, hline, hs⟩ := hstop
      unfold prepend
      rw [Line.parse_of_ofRow? hline first]
      dsimp only
      rw [if_pos hs, if_pos hs]
    · rw [ih hraw (first + 1)]

end Program

/-! ### Texts -/

namespace Text

/-- Whether more text behind a text leaves its last row as it is: that row has ended, or the other
text ends it or is empty. -/
def GoesOn (text more : String) : Prop :=
  Terminated text ∨ more.toList = [] ∨ more.toList.head? = some '\n'

theorem exists_frontOf_append (n : Nat) (cs : List Char) :
    ∃ rest, cs = frontOf n cs ++ rest ∧
      ((frontOf n cs = [] ∨ (frontOf n cs).getLast? = some '\n') ∨ rest = []) := by
  induction n generalizing cs with
  | zero => exact ⟨cs, by cases cs <;> rfl, .inl (.inl (by cases cs <;> rfl))⟩
  | succ n ih =>
    by_cases h : '\n' ∈ cs
    · obtain ⟨xs, ys, rfl, hxs⟩ := List.eq_append_cons_of_mem h
      obtain ⟨rest, hrest, hend⟩ := ih ys
      rw [frontOf_line hxs]
      refine ⟨rest, ?_, hend.imp_left fun hend => .inr ?_⟩
      · rw [List.append_assoc, List.cons_append, ← hrest]
      · rcases hend with hnil | hlast
        · rw [hnil, List.getLast?_concat]
        · rw [List.getLast?_append, List.getLast?_cons, hlast]
          rfl
    · exact ⟨[], by rw [frontOf_of_not_mem h, List.append_nil], .inr rfl⟩

theorem exists_front_append (n : Nat) (text : String) :
    ∃ more, GoesOn (front n text) more ∧ text = front n text ++ more := by
  obtain ⟨rest, hrest, hend⟩ := exists_frontOf_append n text.toList
  refine ⟨String.ofList rest, hend.imp (fun h => ?_) fun h => .inl ?_, ?_⟩
  · unfold Terminated front
    rwa [String.toList_ofList]
  · rw [h]
    rfl
  · rw [front, ← String.ofList_append, ← hrest, String.ofList_toList]

theorem pieces_append_line {text more : String} {cs : List Char} (h : more.toList = '\n' :: cs) :
    pieces (text ++ more) = pieces text ++ (cs.splitOn '\n').map String.ofList := by
  unfold pieces
  rw [String.toList_append, h, List.splitOn_eq_splitOnP, List.splitOn_eq_splitOnP,
    List.splitOn_eq_splitOnP, List.splitOnP_append_cons _ _ (by decide), List.map_append]

theorem exists_piece_of_mem_rows {text raw : String} (h : raw ∈ rows text) :
    ∃ piece ∈ pieces text, codeWords piece = codeWords raw := by
  obtain ⟨cs, hcs, rfl⟩ := List.mem_map.1 h
  obtain ⟨piece, hpiece, hrow⟩ := exists_piece_of_mem_rowsOf hcs
  rw [← List.splitOn_eq_splitOnP] at hpiece
  refine ⟨String.ofList piece, List.mem_map_of_mem hpiece, ?_⟩
  rcases hrow with rfl | rfl
  · exact (codeWords_dropReturn piece).symm
  · rfl

end Text

/-! ### Sources -/

theorem assemble_append_of_stop {text more raw : String} (hraw : raw ∈ Text.rows text)
    (hstop : Text.IsStop raw) (hmore : Text.GoesOn text more) :
    assemble (text ++ more) = assemble text := by
  rcases hmore with hterminated | hempty | hfeed
  · unfold assemble Program.ofSource
    rw [Text.rows_append hterminated, Program.ofRows_append_of_stop hraw hstop]
  · rw [String.toList_eq_nil_iff.1 hempty, String.append_empty]
  · obtain ⟨cs, hcs⟩ := List.head?_eq_some_iff.1 hfeed
    obtain ⟨piece, hpiece, hwords⟩ := Text.exists_piece_of_mem_rows hraw
    rw [assemble_eq_pieces, assemble_eq_pieces, Text.pieces_append_line hcs,
      Program.ofRows_append_of_stop hpiece (hstop.congr hwords.symm)]

/-- Nothing behind `.end` matters.  If a row of a source ends it, the source is the text up to that
row and more text behind it, and whatever other text goes on there has the same outcome: an equal
object and listing, or an equal fault in the same row.  If the row has no label, so do the rows in
front of it alone. -/
theorem assemble_behind_stop {source raw : String} {i : Nat} {line : Line}
    (hraw : (Text.rows source)[i]? = some raw) (hline : Line.parse i raw = .ok line)
    (hstop : line.statement = some .stop) :
    (∃ more, Text.GoesOn (Text.front (i + 1) source) more ∧
      source = Text.front (i + 1) source ++ more) ∧
    (∀ more, Text.GoesOn (Text.front (i + 1) source) more →
      assemble (Text.front (i + 1) source ++ more) = assemble source) ∧
    (line.labels = [] → assemble (Text.front i source) = assemble source) := by
  have hend : Text.IsStop raw := ⟨_, Line.ofRow?_of_parse hline, hstop⟩
  have htake : (Text.rows source).take (i + 1) = (Text.rows source).take i ++ [raw] := by
    rw [List.take_add_one, hraw]
    rfl
  have hmem : raw ∈ Text.rows (Text.front (i + 1) source) := by
    rw [Text.rows_front, htake]
    exact List.mem_concat_self
  obtain ⟨more, hmore, hsource⟩ := Text.exists_front_append (i + 1) source
  have hfront : assemble source = assemble (Text.front (i + 1) source) := by
    rw [← assemble_append_of_stop hmem hend hmore, ← hsource]
  refine ⟨⟨more, hmore, hsource⟩, fun other hother => ?_, fun hlabels => ?_⟩
  · rw [hfront, assemble_append_of_stop hmem hend hother]
  · have hparse : ∀ row, Line.parse row raw = .ok ⟨row, [], some .stop⟩ := fun row => by
      rw [Line.parse_of_ofRow? (Line.ofRow?_of_parse hline) row, ← hlabels, ← hstop]
      rfl
    rw [hfront]
    unfold assemble Program.ofSource
    rw [Text.rows_front, Text.rows_front, htake,
      Program.assemble_ofRows_concat_idle (.inr rfl) hparse]

theorem assemble_behind_stop_label_and_fault :
    (∃ l, assemble ".data\nx: .word y\n.end\ny: .char 1\n" = .error l ∧
      assemble ".data\nx: .word y\n.end\n.data\n? ?" = .error l) ∧
    ∃ a, assemble ".text\nx: iret\n.end\n.text\n1x: ?\n.end" = .ok a ∧
      assemble ".text\nx: iret\n" = .ok a := by
  have hstop : Line.parse 2 ".end" = .ok ⟨2, [], some .stop⟩ := by decide +kernel
  constructor
  · have hl : assemble ".data\nx: .word y\n.end\ny: .char 1\n" =
        .error ⟨some 1, .undefinedSymbol "y"⟩ := by decide +kernel
    have hfront : Text.front 3 ".data\nx: .word y\n.end\ny: .char 1\n" =
        ".data\nx: .word y\n.end\n" := by decide +kernel
    have hraw : (Text.rows ".data\nx: .word y\n.end\ny: .char 1\n")[2]? = some ".end" := by
      decide +kernel
    obtain ⟨-, hmore, -⟩ := assemble_behind_stop hraw hstop rfl
    have hother := hmore ".data\n? ?" (.inl (.inr (by rw [hfront]; decide +kernel)))
    rw [hfront, hl] at hother
    exact ⟨_, hl, hother⟩
  · obtain ⟨a, ha⟩ := Results.exists_of_isSome
      (x := assemble ".text\nx: iret\n.end\n.text\n1x: ?\n.end") (by decide +kernel)
    have hfront : Text.front 2 ".text\nx: iret\n.end\n.text\n1x: ?\n.end" =
        ".text\nx: iret\n" := by decide +kernel
    have hraw : (Text.rows ".text\nx: iret\n.end\n.text\n1x: ?\n.end")[2]? = some ".end" := by
      decide +kernel
    obtain ⟨-, -, hcut⟩ := assemble_behind_stop hraw hstop rfl
    have hcut := hcut rfl
    rw [hfront, ha] at hcut
    exact ⟨a, ha, hcut⟩

end SS16
