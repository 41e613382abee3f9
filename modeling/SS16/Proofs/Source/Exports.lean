import SS16.Proofs.Source.Names
import SS16.Proofs.Source.Words
import Mathlib.Data.List.TakeWhile

/-!
# SS16.Proofs.Source.Exports — sources that export names

`exporting` writes one `.global` row with any names, and the row is read back.  So a source can bring
up as many names as it likes.  Main statement: `Program.ofSource_exporting`.
-/

namespace SS16

namespace Text

/-- Words behind a first one, with a space before each, are told apart again. -/
theorem splitOnP_spaced {w : List Char} {ws : List (List Char)}
    (hw : ∀ c ∈ w, isSeparator c = false) (hws : ∀ v ∈ ws, ∀ c ∈ v, isSeparator c = false) :
    (w ++ ws.flatMap (' ' :: ·)).splitOnP isSeparator = w :: ws := by
  induction ws generalizing w with
  | nil =>
    rw [List.flatMap_nil, List.append_nil]
    exact List.splitOnP_eq_singleton hw
  | cons v ws ih =>
    rw [List.flatMap_cons, List.cons_append,
      List.splitOnP_append_cons_of_forall_mem hw ' ' (by decide),
      ih (hws v List.mem_cons_self) fun u hu => hws u (List.mem_cons_of_mem v hu)]

theorem rowsOf_of_forall_ne {cs : List Char} (h : ∀ c ∈ cs, c ≠ '\n') (hne : cs ≠ []) :
    rowsOf cs = [cs] := by
  have hone : cs.splitOnP (· == '\n') = [cs] :=
    List.splitOnP_eq_singleton fun c hc => beq_eq_false_iff_ne.2 (h c hc)
  unfold rowsOf
  dsimp only
  rw [hone]
  cases cs with
  | nil => exact absurd rfl hne
  | cons c cs => rfl

end Text

/-- A source with one row, which exports names. -/
def exporting (names : List String) : String :=
  String.ofList (".global".toList ++ (names.map String.toList).flatMap (' ' :: ·))

section

variable {names : List String} (h : ∀ n ∈ names, Identifier.isValid n)
include h

theorem mem_exporting {c : Char} (hc : c ∈ (exporting names).toList) : c ≠ '\n' ∧ c ≠ ';' := by
  unfold exporting at hc
  rw [String.toList_ofList] at hc
  rcases List.mem_append.1 hc with hc | hc
  · have hall : ".global".toList.all (fun d => d != '\n' && d != ';') = true := by decide
    have hd := List.all_eq_true.1 hall c hc
    rw [Bool.and_eq_true, bne_iff_ne, bne_iff_ne] at hd
    exact hd
  · obtain ⟨w, hw, hc⟩ := List.mem_flatMap.1 hc
    obtain ⟨n, hn, rfl⟩ := List.mem_map.1 hw
    rcases List.mem_cons.1 hc with rfl | hc
    · decide
    · exact (Identifier.of_isTail (Identifier.isTail_of_mem (h n hn) hc)).2

theorem codeWords_exporting : Text.codeWords (exporting names) = ".global" :: names := by
  have hcode : Text.code (exporting names).toList = (exporting names).toList :=
    List.takeWhile_eq_self_iff.2 fun c hc => bne_iff_ne.2 (mem_exporting h hc).2
  have hsplit : (exporting names).toList.splitOnP Text.isSeparator =
      ".global".toList :: names.map String.toList := by
    have hword : ".global".toList.all (fun d => !Text.isSeparator d) = true := by decide
    have hfirst : ∀ c ∈ ".global".toList, Text.isSeparator c = false := by
      intro c hc
      have hd := List.all_eq_true.1 hword c hc
      rwa [Bool.not_eq_true'] at hd
    unfold exporting
    rw [String.toList_ofList]
    refine Text.splitOnP_spaced hfirst fun w hw c hc => ?_
    obtain ⟨n, hn, rfl⟩ := List.mem_map.1 hw
    exact (Identifier.of_isTail (Identifier.isTail_of_mem (h n hn) hc)).1
  have hkept : (".global".toList :: names.map String.toList).filter (!·.isEmpty) =
      ".global".toList :: names.map String.toList := by
    rw [List.filter_eq_self]
    intro w hw
    rcases List.mem_cons.1 hw with rfl | hw
    · rfl
    · obtain ⟨n, hn, rfl⟩ := List.mem_map.1 hw
      have hne := Identifier.ne_nil_of_valid (h n hn)
      simpa using hne
  unfold Text.codeWords Text.wordsOf
  rw [hcode, hsplit, hkept, List.map_cons, List.map_map, String.ofList_toList]
  congr 1
  exact (List.map_congr_left fun n _ => String.ofList_toList).trans (List.map_id names)

theorem parse_exporting (row : Nat) :
    Line.parse row (exporting names) = .ok ⟨row, [], some (.global names)⟩ := by
  unfold Line.parse Line.ofWords
  rw [codeWords_exporting h]
  have hlabel : Line.isLabel ".global" = false := by decide
  rw [List.dropWhile_cons_of_neg (by rw [hlabel]; exact Bool.false_ne_true),
    List.takeWhile_cons_of_neg (by rw [hlabel]; exact Bool.false_ne_true)]
  have hkeyword : Keyword.parse? ".global" = some .global := Keyword.parse?_text .global
  unfold Line.statementOf Statement.parse
  dsimp only
  rw [hkeyword]
  rfl

theorem Program.ofSource_exporting :
    ofSource (exporting names) = ⟨[⟨0, [], some (.global names)⟩], none⟩ := by
  have hrows : Text.rows (exporting names) = [exporting names] := by
    unfold Text.rows
    rw [Text.rowsOf_of_forall_ne (fun c hc => (mem_exporting h hc).1), List.map_singleton,
      String.ofList_toList]
    unfold exporting
    rw [String.toList_ofList]
    exact List.append_ne_nil_of_left_ne_nil (by decide) _
  unfold ofSource
  rw [hrows, ofRows_cons]
  unfold prepend
  rw [parse_exporting h]
  rfl

theorem Program.steps_exporting :
    (ofSource (exporting names)).steps = names.map fun n => (0, .share n) := by
  have hshare : names.map Statement.shareStep = names.map .share := by
    refine List.map_congr_left fun n hn => ?_
    unfold Statement.shareStep
    rw [if_pos (h n hn)]
  rw [ofSource_exporting h]
  show (names.map Statement.shareStep).map (fun s => ((0 : Nat), s)) ++ [] ++ [] = _
  rw [hshare, List.append_nil, List.append_nil, List.map_map]
  rfl

theorem Program.names_exporting : (ofSource (exporting names)).names = names := by
  unfold Program.names
  rw [steps_exporting h, List.filterMap_map]
  exact List.filterMap_some

end

end SS16
