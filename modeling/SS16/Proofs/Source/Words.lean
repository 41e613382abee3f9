import SS16.Text.Identifier
import SS16.Text.Words
import Mathlib.Data.List.TakeWhile
import Mathlib.Tactic.SplitIfs

/-!
# SS16.Proofs.Source.Words — words of texts that are put together

Words are told apart by any separators between them, and no character of a name is one.  A carriage
return at the end of a row is in none of its words.  Main statements:
`Text.words_append_space`, `Text.words_of_isWord` and `Text.map_codeWords_rows`.
-/

namespace SS16

namespace Identifier

theorem toNat_lt_of_isAlphanum {c : Char} (h : c.isAlphanum) : c.toNat < 128 := by
  have hle : ∀ {d : Char}, c.val ≤ d.val → d.toNat < 128 → c.toNat < 128 := fun hd hlt =>
    Nat.lt_of_le_of_lt (UInt32.le_iff_toNat_le.1 hd) hlt
  rcases Bool.or_eq_true_iff.1 h with halpha | hdigit
  · rcases Bool.or_eq_true_iff.1 halpha with hupper | hlower
    · have hbounds : 'A'.val ≤ c.val ∧ c.val ≤ 'Z'.val := of_decide_eq_true hupper
      exact hle hbounds.2 (by decide)
    · have hbounds := Bool.and_eq_true_iff.1 hlower
      exact hle (of_decide_eq_true hbounds.2) (by decide)
  · have hbounds := Char.isDigit_iff_toNat.1 hdigit
    exact Nat.lt_of_le_of_lt hbounds.2 (by decide)

/-- Characters of names are ASCII, so that a closed check tells what holds of all of them. -/
theorem forall_isTail {P : Char → Prop}
    (h : ∀ n < 128, isTail (Char.ofNat n) → P (Char.ofNat n)) {c : Char} (hc : isTail c) : P c := by
  have hlt : c.toNat < 128 := by
    rcases Bool.or_eq_true_iff.1 hc with hc | hc
    · exact toNat_lt_of_isAlphanum hc
    · rw [eq_of_beq hc]
      decide
  have hall := h c.toNat hlt
  rw [Char.ofNat_toNat] at hall
  exact hall hc

/-- No character of a name ends a word, a row or the code of a row. -/
theorem of_isTail {c : Char} (h : isTail c) :
    Text.isSeparator c = false ∧ c ≠ '\n' ∧ c ≠ ';' :=
  forall_isTail (P := fun c => Text.isSeparator c = false ∧ c ≠ '\n' ∧ c ≠ ';')
    (by decide +kernel) h

theorem isTail_of_mem {cs : List Char} (h : valid cs) {c : Char} (hc : c ∈ cs) : isTail c := by
  cases cs with
  | nil => cases hc
  | cons d cs =>
    unfold valid at h
    rw [Bool.and_eq_true] at h
    rcases List.mem_cons.1 hc with rfl | hc
    · have hhead := h.1
      unfold isHead at hhead
      unfold isTail Char.isAlphanum
      rw [Bool.or_eq_true] at hhead ⊢
      rw [Bool.or_eq_true]
      exact hhead.imp_left .inl
    · exact List.all_eq_true.1 h.2 c hc

theorem ne_nil_of_valid {cs : List Char} (h : valid cs) : cs ≠ [] := by
  rintro rfl
  cases h

end Identifier

namespace Text

theorem wordsOf_append_cons {c : Char} (hc : isSeparator c) (xs ys : List Char) :
    wordsOf (xs ++ c :: ys) = wordsOf xs ++ wordsOf ys := by
  unfold wordsOf
  rw [List.splitOnP_append_cons xs ys hc, List.filter_append]

theorem wordsOf_eq_singleton {w : List Char} (hne : w ≠ [])
    (h : ∀ c ∈ w, isSeparator c = false) : wordsOf w = [w] := by
  unfold wordsOf
  rw [List.splitOnP_eq_singleton h]
  simpa using hne

theorem wordsOf_eq_nil {cs : List Char} (h : ∀ c ∈ cs, isSeparator c) : wordsOf cs = [] := by
  induction cs with
  | nil => rfl
  | cons c cs ih =>
    rw [← List.nil_append (c :: cs), wordsOf_append_cons (h c List.mem_cons_self),
      ih fun d hd => h d (List.mem_cons_of_mem c hd)]
    rfl

theorem wordsOf_append_right {ys : List Char} (h : ∀ c ∈ ys, isSeparator c) (xs : List Char) :
    wordsOf (xs ++ ys) = wordsOf xs := by
  cases ys with
  | nil => rw [List.append_nil]
  | cons c ys =>
    rw [wordsOf_append_cons (h c List.mem_cons_self),
      wordsOf_eq_nil fun d hd => h d (List.mem_cons_of_mem c hd), List.append_nil]

theorem wordsOf_append_left {xs : List Char} (h : ∀ c ∈ xs, isSeparator c) (ys : List Char) :
    wordsOf (xs ++ ys) = wordsOf ys := by
  induction xs with
  | nil => rfl
  | cons c xs ih =>
    have ih := ih fun d hd => h d (List.mem_cons_of_mem c hd)
    rw [List.cons_append, ← List.nil_append (c :: (xs ++ ys)),
      wordsOf_append_cons (h c List.mem_cons_self), ih]
    rfl

theorem words_append_space (s t : String) : words (s ++ " " ++ t) = words s ++ words t := by
  unfold words
  rw [String.toList_append, String.toList_append, List.append_assoc,
    show " ".toList ++ t.toList = ' ' :: t.toList from rfl,
    wordsOf_append_cons (by decide), List.map_append]

/-- Whether a text is one word: it holds something and no separators. -/
def IsWord (s : String) : Prop := s.toList ≠ [] ∧ ∀ c ∈ s.toList, isSeparator c = false

theorem words_of_isWord {s : String} (h : IsWord s) : words s = [s] := by
  unfold words
  rw [wordsOf_eq_singleton h.1 h.2, List.map_singleton, String.ofList_toList]

/-! ### The words of a row -/

def IsPlain (w : String) : Prop :=
  w.toList ≠ [] ∧ ∀ c ∈ w.toList, isSeparator c = false ∧ c ≠ ';'

theorem of_mem_splitOnP {p : Char → Bool} {cs w : List Char} (hw : w ∈ cs.splitOnP p)
    (hc : c ∈ w) : c ∈ cs ∧ p c = false := by
  induction cs generalizing w with
  | nil =>
    rw [List.splitOnP_nil, List.mem_singleton] at hw
    rw [hw] at hc
    cases hc
  | cons d cs ih =>
    rw [List.splitOnP_cons_eq_if_modifyHead] at hw
    split_ifs at hw with hd
    · rcases List.mem_cons.1 hw with rfl | hw
      · cases hc
      · exact (ih hw hc).imp_left (List.mem_cons_of_mem d)
    · obtain ⟨v, vs, hvs⟩ := List.exists_cons_of_ne_nil (List.splitOnP_ne_nil p cs)
      rw [hvs, List.modifyHead_cons] at hw
      rw [hvs] at ih
      rcases List.mem_cons.1 hw with rfl | hw
      · rcases List.mem_cons.1 hc with rfl | hc
        · exact ⟨List.mem_cons_self, by simpa using hd⟩
        · exact (ih List.mem_cons_self hc).imp_left (List.mem_cons_of_mem d)
      · exact (ih (List.mem_cons_of_mem v hw) hc).imp_left (List.mem_cons_of_mem d)

theorem isPlain_of_mem_codeWords {raw w : String} (h : w ∈ codeWords raw) : IsPlain w := by
  obtain ⟨cs, hcs, rfl⟩ := List.mem_map.1 h
  obtain ⟨hpiece, hne⟩ := List.mem_filter.1 hcs
  unfold IsPlain
  rw [String.toList_ofList]
  refine ⟨by simpa using hne, fun c hc => ?_⟩
  obtain ⟨hmem, hsep⟩ := of_mem_splitOnP hpiece hc
  exact ⟨hsep, by simpa using List.mem_takeWhile_imp hmem⟩

theorem dropReturn_sublist (row : List Char) : (dropReturn row).Sublist row := by
  unfold dropReturn
  split_ifs
  · exact List.dropLast_sublist row
  · exact List.Sublist.refl row

/-- A row is a piece between line feeds, with or without the carriage return at its end. -/
theorem exists_piece_of_mem_rowsOf {cs row : List Char} (h : row ∈ rowsOf cs) :
    ∃ piece ∈ cs.splitOnP (· == '\n'), row = dropReturn piece ∨ row = piece := by
  rcases List.mem_append.1 h with h | h
  · obtain ⟨piece, hpiece, rfl⟩ := List.mem_map.1 h
    exact ⟨piece, (List.dropLast_sublist _).subset hpiece, .inl rfl⟩
  · obtain ⟨hlast, -⟩ := Option.filter_eq_some_iff.1 (Option.mem_toList.1 h)
    exact ⟨row, List.mem_of_getLast? hlast, .inr rfl⟩

theorem not_mem_of_mem_rows {text raw : String} (h : raw ∈ rows text) : '\n' ∉ raw.toList := by
  obtain ⟨cs, hcs, rfl⟩ := List.mem_map.1 h
  obtain ⟨piece, hpiece, hrow⟩ := exists_piece_of_mem_rowsOf hcs
  have hsub : cs.Sublist piece := by
    rcases hrow with rfl | rfl
    · exact dropReturn_sublist piece
    · exact List.Sublist.refl cs
  rw [String.toList_ofList]
  intro hmem
  exact absurd (of_mem_splitOnP hpiece (hsub.subset hmem)).2 (by decide)

theorem codeWords_dropReturn (row : List Char) :
    codeWords (String.ofList (dropReturn row)) = codeWords (String.ofList row) := by
  unfold dropReturn
  split
  · rename_i hlast
    obtain ⟨cs, rfl⟩ := List.getLast?_eq_some_iff.1 hlast
    have hreturn : ∀ c ∈ ['\r'], isSeparator c := by
      intro c hc
      rw [List.mem_singleton.1 hc]
      decide
    have hwords : wordsOf (code (cs ++ ['\r'])) = wordsOf (code cs) := by
      unfold code
      rw [List.takeWhile_append]
      split_ifs with hfull
      · have hall := (List.takeWhile_prefix (· != ';')).eq_of_length hfull
        rw [hall]
        exact wordsOf_append_right hreturn cs
      · rfl
    unfold codeWords
    rw [List.dropLast_concat, String.toList_ofList, String.toList_ofList, hwords]
  · rfl

theorem map_codeWords_rows (text : String) :
    (rows text).map codeWords = ((text.toList.splitOn '\n').dropLast ++
      ((text.toList.splitOn '\n').getLast?.filter (!·.isEmpty)).toList).map
        fun cs => codeWords (String.ofList cs) := by
  unfold rows rowsOf
  dsimp only
  rw [← List.splitOn_eq_splitOnP, List.map_map, List.map_append, List.map_map, List.map_append]
  refine congrArg (· ++ _) (List.map_congr_left fun cs _ => codeWords_dropReturn cs)

end Text

namespace Identifier

theorem isPlain {n : String} (h : isValid n) : Text.IsPlain n := by
  have hvalid : valid n.toList := h
  refine ⟨ne_nil_of_valid hvalid, fun c hc => ?_⟩
  obtain ⟨hsep, -, hcomment⟩ := of_isTail (isTail_of_mem hvalid hc)
  exact ⟨hsep, hcomment⟩

end Identifier

end SS16
