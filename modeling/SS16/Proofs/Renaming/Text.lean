import SS16.Proofs.Renaming.Program
import SS16.Proofs.Source.Blocks

/-!
# SS16.Proofs.Renaming.Text — other names in a source text

A renaming is applied to a source in place: the words of each row are replaced, and all that stands
between them and behind them stays.  Main statements: `Text.wordsOf_respell`,
`Renaming.codeWords_row` and `Renaming.ofSource_rename`.
-/

namespace SS16

/-! ### Other words in a text -/

namespace Text

/-- Puts other words in the place of the words of a text, in order.  The flag tells whether the text
goes on inside a word. -/
def respell : Bool → List Char → List (List Char) → List Char
  | _, [], _ => []
  | inside, c :: cs, ws =>
    if isSeparator c then c :: respell false cs ws
    else if inside then respell true cs ws
    else ws.headD [] ++ respell true cs ws.tail

variable {c : Char}

theorem respell_of_isSeparator (hc : isSeparator c) (inside : Bool) (cs : List Char)
    (ws : List (List Char)) : respell inside (c :: cs) ws = c :: respell false cs ws :=
  if_pos hc

theorem respell_inside (hc : isSeparator c = false) (cs : List Char) (ws : List (List Char)) :
    respell true (c :: cs) ws = respell true cs ws := by
  show (if isSeparator c then _ else _) = _
  rw [if_neg (by simp [hc])]
  rfl

theorem respell_outside (hc : isSeparator c = false) (cs : List Char) (ws : List (List Char)) :
    respell false (c :: cs) ws = ws.headD [] ++ respell true cs ws.tail := by
  show (if isSeparator c then _ else _) = _
  rw [if_neg (by simp [hc])]
  rfl

theorem respell_true (cs : List Char) (ws : List (List Char)) :
    respell true cs ws = respell false (cs.dropWhile fun c => !isSeparator c) ws := by
  induction cs with
  | nil => rfl
  | cons c cs ih =>
    cases hc : isSeparator c with
    | true =>
      rw [List.dropWhile_cons_of_neg (by simp [hc]), respell_of_isSeparator hc,
        respell_of_isSeparator hc]
    | false => rw [List.dropWhile_cons_of_pos (by simp [hc]), respell_inside hc, ih]

theorem mem_respell {inside : Bool} {cs : List Char} {ws : List (List Char)}
    (h : c ∈ respell inside cs ws) : c ∈ cs ∨ ∃ w ∈ ws, c ∈ w := by
  induction cs generalizing inside ws with
  | nil => cases h
  | cons d cs ih =>
    cases hd : isSeparator d with
    | true =>
      rw [respell_of_isSeparator hd] at h
      rcases List.mem_cons.1 h with rfl | h
      · exact .inl List.mem_cons_self
      · exact (ih h).imp_left (List.mem_cons_of_mem d)
    | false =>
      cases inside with
      | true =>
        rw [respell_inside hd] at h
        exact (ih h).imp_left (List.mem_cons_of_mem d)
      | false =>
        rw [respell_outside hd] at h
        cases ws with
        | nil => exact (ih h).imp_left (List.mem_cons_of_mem d)
        | cons w ws =>
          rcases List.mem_append.1 h with h | h
          · exact .inr ⟨w, List.mem_cons_self, h⟩
          · refine (ih h).imp (List.mem_cons_of_mem d) ?_
            rintro ⟨v, hv, hc⟩
            exact ⟨v, List.mem_cons_of_mem w hv, hc⟩

theorem wordsOf_cons_of_isSeparator (hc : isSeparator c) (cs : List Char) :
    wordsOf (c :: cs) = wordsOf cs := by
  have hall : ∀ d ∈ [c], isSeparator d := by simpa using hc
  exact wordsOf_append_left hall cs

theorem wordsOf_append_of_word {w : List Char} (hne : w ≠ [])
    (hw : ∀ c ∈ w, isSeparator c = false) {rest : List Char}
    (hrest : ∀ c ∈ rest.head?, isSeparator c) : wordsOf (w ++ rest) = w :: wordsOf rest := by
  cases rest with
  | nil =>
    rw [List.append_nil, wordsOf_eq_singleton hne hw]
    rfl
  | cons d rest =>
    have hd : isSeparator d := hrest d rfl
    rw [wordsOf_append_cons hd, wordsOf_eq_singleton hne hw, wordsOf_cons_of_isSeparator hd]
    rfl

theorem isSeparator_of_head?_dropWhile {cs : List Char}
    (h : (cs.dropWhile fun d => !isSeparator d).head? = some c) : isSeparator c := by
  have hfirst := List.head?_dropWhile_not (fun d => !isSeparator d) cs
  rw [h] at hfirst
  simpa using hfirst

theorem wordsOf_cons_of_not_isSeparator (hc : isSeparator c = false) (cs : List Char) :
    wordsOf (c :: cs) = (c :: cs.takeWhile fun d => !isSeparator d) ::
      wordsOf (cs.dropWhile fun d => !isSeparator d) := by
  have hword : ∀ d ∈ c :: cs.takeWhile fun d => !isSeparator d, isSeparator d = false := by
    refine List.forall_mem_cons.2 ⟨hc, fun d hd => ?_⟩
    simpa using List.mem_takeWhile_imp hd
  rw [← wordsOf_append_of_word (by simp) hword fun d hd => isSeparator_of_head?_dropWhile hd,
    List.cons_append, List.takeWhile_append_dropWhile]

theorem head?_respell {cs : List Char} (h : ∀ c ∈ cs.head?, isSeparator c)
    (ws : List (List Char)) : (respell false cs ws).head? = cs.head? := by
  cases cs with
  | nil => rfl
  | cons c cs =>
    rw [respell_of_isSeparator (h c rfl)]
    rfl

/-- The words that are put in are those of the text that comes out. -/
theorem wordsOf_respell {cs : List Char} {ws : List (List Char)}
    (hws : ∀ w ∈ ws, w ≠ [] ∧ ∀ c ∈ w, isSeparator c = false)
    (hlength : ws.length = (wordsOf cs).length) : wordsOf (respell false cs ws) = ws := by
  -- Behind a word the text goes on at the next separator, so the induction is on its length.
  induction hn : cs.length using Nat.strong_induction_on generalizing cs ws with
  | _ n ih =>
    subst hn
    cases cs with
    | nil => exact (List.eq_nil_of_length_eq_zero hlength).symm
    | cons c cs =>
      cases hc : isSeparator c with
      | true =>
        rw [wordsOf_cons_of_isSeparator hc] at hlength
        rw [respell_of_isSeparator hc, wordsOf_cons_of_isSeparator hc]
        exact ih _ (Nat.lt_succ_self _) hws hlength rfl
      | false =>
        rw [wordsOf_cons_of_not_isSeparator hc] at hlength
        obtain ⟨w, ws, rfl⟩ := List.exists_cons_of_length_eq_add_one hlength
        obtain ⟨hw, hws⟩ := List.forall_mem_cons.1 hws
        have hshorter : (cs.dropWhile fun d => !isSeparator d).length < (c :: cs).length :=
          Nat.lt_succ_of_le (List.length_dropWhile_le _ cs)
        have hrest := ih _ hshorter hws (Nat.succ.inj hlength) rfl
        have hstart : ∀ d ∈ (cs.dropWhile fun d => !isSeparator d).head?, isSeparator d :=
          fun d hd => isSeparator_of_head?_dropWhile hd
        rw [respell_outside hc, respell_true, List.headD_cons, List.tail_cons,
          wordsOf_append_of_word hw.1 hw.2 (by rwa [head?_respell hstart]), hrest]

theorem respell_ne_nil {cs : List Char} {ws : List (List Char)} (hws : ∀ w ∈ ws, w ≠ [])
    (hlength : ws.length = (wordsOf cs).length) (hcs : cs ≠ []) : respell false cs ws ≠ [] := by
  cases cs with
  | nil => exact absurd rfl hcs
  | cons c cs =>
    cases hc : isSeparator c with
    | true =>
      rw [respell_of_isSeparator hc]
      exact List.cons_ne_nil _ _
    | false =>
      rw [wordsOf_cons_of_not_isSeparator hc] at hlength
      obtain ⟨w, ws, rfl⟩ := List.exists_cons_of_length_eq_add_one hlength
      rw [respell_outside hc]
      exact List.append_ne_nil_of_left_ne_nil (hws w List.mem_cons_self) _

end Text

theorem Operand.Spelling.isPlain_word {n : String} {s : Spelling} (hn : Identifier.isValid n)
    (hs : s.Allows n) : Text.IsPlain (s.word n) := by
  have hname := (Identifier.isPlain hn).2
  unfold Text.IsPlain
  rw [toList_word]
  cases s with
  | plain => exact Identifier.isPlain hn
  | address => exact ⟨List.cons_ne_nil _ _, List.forall_mem_cons.2 ⟨by decide, hname⟩⟩
  | relative => exact ⟨List.cons_ne_nil _ _, List.forall_mem_cons.2 ⟨by decide, hname⟩⟩
  | indexed d =>
    have hd := (Identifier.isPlain (Register.isValid_of_mem_names
      (Register.mem_names_of_isIndex hs))).2
    rw [String.toList_ofList] at hd
    refine ⟨List.cons_ne_nil _ _, List.forall_mem_cons.2 ⟨by decide, List.forall_mem_cons.2
      ⟨hd d (by simp), List.forall_mem_cons.2 ⟨by decide, fun c hc => ?_⟩⟩⟩⟩
    rcases List.mem_append.1 hc with hc | hc
    · exact hname c hc
    · rw [List.mem_singleton.1 hc]
      decide

/-! ### Other names in a source -/

namespace Renaming

open Text (IsPlain respell codeWords)

variable (ρ : Renaming)

theorem isPlain_ident {w : String} (h : IsPlain w) : IsPlain (ρ.ident w) := by
  cases hv : Identifier.isValid w with
  | true => exact Identifier.isPlain ((ρ.isValid_ident w).trans hv)
  | false => rwa [ρ.ident_of_not_isValid hv]

theorem isPlain_operandWord {w : String} (h : IsPlain w) : IsPlain (ρ.operandWord w) := by
  rcases ρ.exists_spelling_or w with ⟨n, s, hn, hs, rfl⟩ | hsame
  · rw [ρ.operandWord_word hn hs]
    exact Operand.Spelling.isPlain_word ((ρ.isValid_ident n).trans hn) (ρ.allows_ident hs)
  · rwa [hsame]

theorem isPlain_labelWord {w : String} (h : IsPlain w) : IsPlain (ρ.labelWord w) := by
  unfold labelWord
  split
  · rename_i n hl
    have hname := (Identifier.isPlain (ρ.isValid_name n (Line.isValid_of_label? hl))).2
    unfold IsPlain
    rw [show (ρ.name n ++ ":").toList = (ρ.name n).toList ++ [':'] from String.toList_append]
    refine ⟨List.append_ne_nil_of_right_ne_nil _ (List.cons_ne_nil _ _), fun c hc => ?_⟩
    rcases List.mem_append.1 hc with hc | hc
    · exact hname c hc
    · rw [List.mem_singleton.1 hc]
      decide
  · exact h

theorem isPlain_argWords {word : String} {args : List String} (h : ∀ w ∈ args, IsPlain w) :
    ∀ w ∈ ρ.argWords word args, IsPlain w := by
  intro w hw
  unfold argWords at hw
  split_ifs at hw
  · obtain ⟨v, hv, rfl⟩ := List.mem_map.1 hw
    exact ρ.isPlain_ident (h v hv)
  · exact h w hw
  · obtain ⟨v, hv, rfl⟩ := List.mem_map.1 hw
    exact ρ.isPlain_operandWord (h v hv)

theorem length_argWords (word : String) (args : List String) :
    (ρ.argWords word args).length = args.length := by
  unfold argWords
  split_ifs
  · exact List.length_map _
  · rfl
  · exact List.length_map _

theorem isPlain_lineWords {words : List String} (h : ∀ w ∈ words, IsPlain w) :
    ∀ w ∈ ρ.lineWords words, IsPlain w := by
  intro w hw
  unfold lineWords at hw
  rcases List.mem_append.1 hw with hw | hw
  · obtain ⟨v, hv, rfl⟩ := List.mem_map.1 hw
    exact ρ.isPlain_labelWord (h v ((List.takeWhile_sublist _).subset hv))
  · have hrest : ∀ v ∈ words.dropWhile Line.isLabel, IsPlain v := fun v hv =>
      h v ((List.dropWhile_sublist _).subset hv)
    split at hw
    · cases hw
    · rename_i word args hdrop
      rw [hdrop] at hrest
      obtain ⟨hword, hargs⟩ := List.forall_mem_cons.1 hrest
      rcases List.mem_cons.1 hw with rfl | hw
      · exact hword
      · exact ρ.isPlain_argWords hargs w hw

theorem length_lineWords (words : List String) : (ρ.lineWords words).length = words.length := by
  unfold lineWords
  have hsplit := congrArg List.length
    (List.takeWhile_append_dropWhile (p := Line.isLabel) (l := words))
  rw [List.length_append] at hsplit
  rw [List.length_append, List.length_map]
  split
  · rename_i hdrop
    rw [hdrop] at hsplit
    exact hsplit
  · rename_i word args hdrop
    rw [hdrop, List.length_cons] at hsplit
    rw [List.length_cons, ρ.length_argWords]
    exact hsplit

def rowWords (row : List Char) : List (List Char) :=
  (ρ.lineWords (codeWords (String.ofList row))).map String.toList

/-- A row with other names.  Its comment stays as it is. -/
def row (row : List Char) : List Char :=
  respell false (Text.code row) (ρ.rowWords row) ++ row.dropWhile (· != ';')

def rename (source : String) : String :=
  String.ofList (['\n'].intercalate ((source.toList.splitOn '\n').map ρ.row))

theorem of_mem_rowWords {row w : List Char} (h : w ∈ ρ.rowWords row) :
    w ≠ [] ∧ ∀ c ∈ w, Text.isSeparator c = false ∧ c ≠ ';' := by
  obtain ⟨v, hv, rfl⟩ := List.mem_map.1 h
  exact ρ.isPlain_lineWords (fun _ hw => Text.isPlain_of_mem_codeWords hw) v hv

theorem length_rowWords (row : List Char) :
    (ρ.rowWords row).length = (Text.wordsOf (Text.code row)).length := by
  unfold rowWords codeWords
  rw [List.length_map, ρ.length_lineWords, List.length_map, String.toList_ofList]

theorem code_row (row : List Char) :
    Text.code (ρ.row row) = respell false (Text.code row) (ρ.rowWords row) := by
  have hcode : ∀ c ∈ respell false (Text.code row) (ρ.rowWords row), (c != ';') = true := by
    intro c hc
    rcases Text.mem_respell hc with hc | ⟨w, hw, hc⟩
    · exact List.mem_takeWhile_imp (p := (· != ';')) hc
    · exact bne_iff_ne.2 ((ρ.of_mem_rowWords hw).2 c hc).2
  have hcomment : (row.dropWhile (· != ';')).takeWhile (· != ';') = [] := by
    have hfirst := List.head?_dropWhile_not (· != ';') row
    cases hrest : row.dropWhile (· != ';') with
    | nil => rfl
    | cons c cs =>
      rw [hrest] at hfirst
      exact List.takeWhile_cons_of_neg (by simpa using hfirst)
  show (ρ.row row).takeWhile (· != ';') = _
  unfold Renaming.row
  rw [List.takeWhile_append_of_pos hcode, hcomment, List.append_nil]

theorem codeWords_row (row : List Char) :
    codeWords (String.ofList (ρ.row row)) = ρ.lineWords (codeWords (String.ofList row)) := by
  have hwords : ∀ w ∈ ρ.rowWords row, w ≠ [] ∧ ∀ c ∈ w, Text.isSeparator c = false :=
    fun w hw => (ρ.of_mem_rowWords hw).imp_right fun h c hc => (h c hc).1
  show (Text.wordsOf (Text.code (String.ofList (ρ.row row)).toList)).map String.ofList = _
  rw [String.toList_ofList, ρ.code_row, Text.wordsOf_respell hwords (ρ.length_rowWords row)]
  unfold rowWords
  rw [List.map_map]
  exact (List.map_congr_left fun w _ => String.ofList_toList).trans (List.map_id _)

theorem row_eq_nil_iff (row : List Char) : ρ.row row = [] ↔ row = [] := by
  constructor
  · intro h
    obtain ⟨hcode, hcomment⟩ := List.append_eq_nil_iff.1 h
    have hnil : Text.code row = [] := by
      by_contra hne
      exact Text.respell_ne_nil (fun w hw => (ρ.of_mem_rowWords hw).1) (ρ.length_rowWords row)
        hne hcode
    rw [← List.takeWhile_append_dropWhile (p := (· != ';')) (l := row), hcomment, List.append_nil]
    exact hnil
  · rintro rfl
    rfl

theorem not_mem_row {row : List Char} (h : '\n' ∉ row) : '\n' ∉ ρ.row row := by
  intro hmem
  rcases List.mem_append.1 hmem with hmem | hmem
  · rcases Text.mem_respell hmem with hmem | ⟨w, hw, hmem⟩
    · exact h ((List.takeWhile_sublist _).subset hmem)
    · exact absurd ((ρ.of_mem_rowWords hw).2 _ hmem).1 (by decide)
  · exact h ((List.dropWhile_sublist _).subset hmem)

theorem splitOn_rename (source : String) :
    (ρ.rename source).toList.splitOn '\n' = (source.toList.splitOn '\n').map ρ.row := by
  unfold rename
  rw [String.toList_ofList, List.splitOn_intercalate]
  · intro cs hcs
    obtain ⟨row, hrow, rfl⟩ := List.mem_map.1 hcs
    rw [List.splitOn_eq_splitOnP] at hrow
    exact ρ.not_mem_row fun hmem => absurd (Text.of_mem_splitOnP hrow hmem).2 (by decide)
  · exact fun h => List.splitOn_ne_nil _ _ (List.map_eq_nil_iff.1 h)

theorem map_codeWords_rename (source : String) :
    (Text.rows (ρ.rename source)).map codeWords =
      (Text.rows source).map fun raw => ρ.lineWords (codeWords raw) := by
  have hempty : (fun cs : List Char => !cs.isEmpty) ∘ ρ.row = fun cs => !cs.isEmpty := by
    funext cs
    rw [Bool.eq_iff_iff]
    simp [ρ.row_eq_nil_iff]
  have hlines : (Text.rows source).map (fun raw => ρ.lineWords (codeWords raw)) =
      ((Text.rows source).map codeWords).map ρ.lineWords := by
    rw [List.map_map]
    rfl
  rw [hlines, Text.map_codeWords_rows, Text.map_codeWords_rows, ρ.splitOn_rename,
    ← List.map_dropLast, List.getLast?_map, Option.filter_map, hempty, Option.toList_map,
    ← List.map_append, List.map_map, List.map_map]
  exact List.map_congr_left fun cs _ => ρ.codeWords_row cs

/-- The program of a source with other names is its program with other names. -/
theorem ofSource_rename (source : String) :
    Program.ofSource (ρ.rename source) = ρ.program (Program.ofSource source) :=
  ρ.ofRows_eq (ρ.map_codeWords_rename source) 0

end Renaming

end SS16
