import SS16.Proofs.Source.Keywords
import SS16.Proofs.Source.Names
import Mathlib.Algebra.Order.Ring.Nat

/-!
# SS16.Proofs.Source.Sizes — how long rows and lists of arguments can be

A text has at least two characters for each word but the last, so a statement has fewer arguments
than half the bytes of its source.  Main statement: `Program.two_mul_length_args`.
-/

namespace SS16

namespace Text

/-- Pieces between separators, each with the separator that ends it, make up the text. -/
theorem sum_length_splitOnP (p : Char → Bool) (cs : List Char) :
    ((cs.splitOnP p).map fun w => w.length + 1).sum = cs.length + 1 := by
  induction cs with
  | nil => rfl
  | cons c cs ih =>
    rw [List.splitOnP_cons_eq_if_modifyHead]
    by_cases hc : p c
    · rw [if_pos hc, List.map_cons, List.sum_cons, ih, List.length_nil, List.length_cons]
      omega
    · rw [if_neg hc]
      obtain ⟨w, ws, hw⟩ := List.exists_cons_of_ne_nil (List.splitOnP_ne_nil p cs)
      rw [hw, List.map_cons, List.sum_cons] at ih
      rw [hw, List.modifyHead_cons, List.map_cons, List.sum_cons, List.length_cons,
        List.length_cons]
      omega

theorem length_le_of_mem_splitOnP {p : Char → Bool} {cs w : List Char} (h : w ∈ cs.splitOnP p) :
    w.length ≤ cs.length := by
  have hsum := sum_length_splitOnP p cs
  obtain ⟨as, bs, hsplit⟩ := List.append_of_mem h
  rw [hsplit, List.map_append, List.map_cons, List.sum_append, List.sum_cons] at hsum
  omega

/-- Words hold a character each and are kept apart by one. -/
theorem two_mul_length_wordsOf (cs : List Char) : 2 * (wordsOf cs).length ≤ cs.length + 1 := by
  have hcount : ∀ ws : List (List Char),
      2 * (ws.filter (!·.isEmpty)).length ≤ (ws.map fun w => w.length + 1).sum := by
    intro ws
    induction ws with
    | nil => exact Nat.le_refl 0
    | cons w ws ih =>
      rw [List.map_cons, List.sum_cons]
      cases w with
      | nil =>
        show 2 * (ws.filter _).length ≤ _
        omega
      | cons c w =>
        show 2 * ((ws.filter _).length + 1) ≤ (w.length + 1) + 1 + _
        omega
  rw [← sum_length_splitOnP isSeparator]
  exact hcount (cs.splitOnP isSeparator)

theorem length_le_of_mem_rowsOf {cs row : List Char} (h : row ∈ rowsOf cs) :
    row.length ≤ cs.length := by
  obtain ⟨piece, hpiece, hrow⟩ := exists_piece_of_mem_rowsOf h
  refine Nat.le_trans ?_ (length_le_of_mem_splitOnP hpiece)
  rcases hrow with rfl | rfl
  · exact (dropReturn_sublist piece).length_le
  · exact Nat.le_refl _

theorem length_le_utf8ByteSize (s : String) : s.toList.length ≤ s.utf8ByteSize := by
  have hchars : ∀ cs : List Char, cs.length ≤ (String.ofList cs).utf8ByteSize := by
    intro cs
    induction cs with
    | nil => exact Nat.zero_le _
    | cons c cs ih =>
      have hpos := c.utf8Size_pos
      rw [String.ofList_cons, String.utf8ByteSize_append, String.utf8ByteSize_singleton,
        List.length_cons]
      omega
  have h := hchars s.toList
  rwa [String.ofList_toList] at h

end Text

theorem Statement.args_of_parse {word : String} {args args' : List String} {w : Width}
    (h : parse word args = .ok (.data w args')) : args' = args := by
  obtain ⟨k, -, hmakes⟩ := exists_makes h
  cases hmakes
  rfl

namespace Line

theorem two_mul_length_args {row : Nat} {raw : String} {line : Line} {w : Width}
    {args : List String} (h : parse row raw = .ok line)
    (hs : line.statement = some (.data w args)) : 2 * args.length < raw.toList.length := by
  obtain ⟨st, hst, rfl⟩ := Results.map_eq_ok_iff.1 h
  obtain rfl : st = some (.data w args) := hs
  have hwords : ((Text.codeWords raw).dropWhile isLabel).length ≤ (Text.codeWords raw).length :=
    (List.dropWhile_sublist _).length_le
  have hcode : (Text.code raw.toList).length ≤ raw.toList.length :=
    (List.takeWhile_sublist _).length_le
  have htwo := Text.two_mul_length_wordsOf (Text.code raw.toList)
  have hlen : (Text.codeWords raw).length = (Text.wordsOf (Text.code raw.toList)).length :=
    List.length_map _
  generalize (Text.codeWords raw).dropWhile isLabel = ws at hst hwords
  cases ws with
  | nil => cases hst
  | cons word args' =>
    obtain ⟨s, hp, hs⟩ := Results.map_eq_ok_iff.1 hst
    cases hs
    obtain rfl := Statement.args_of_parse hp
    rw [List.length_cons] at hwords
    omega

end Line

/-- A source has more than two bytes for each element of a statement. -/
theorem Program.two_mul_length_args {source : String} {line : Line} {w : Width}
    {args : List String} (hl : line ∈ (ofSource source).lines)
    (hs : line.statement = some (.data w args)) : 2 * args.length < source.utf8ByteSize := by
  obtain ⟨row, raw, hraw, hp⟩ := exists_parse_of_mem_lines hl
  obtain ⟨cs, hcs, rfl⟩ := List.mem_map.1 hraw
  have hrow := Line.two_mul_length_args hp hs
  rw [String.toList_ofList] at hrow
  have hcs := Text.length_le_of_mem_rowsOf hcs
  have hbytes := Text.length_le_utf8ByteSize source
  omega

end SS16
