import SS16.Proofs.Source.Words
import Mathlib.Data.List.Forall2

/-!
# SS16.Proofs.Source.Spacing — words and the space around them

A row is a run of words with separators between them, in front and behind, and a comment at its end.
Its words are read back however they are spaced, and every row is one of words.  Main statements:
`Text.Writes.codeWords_eq`, `Text.exists_writes` and `Text.sameWords_iff`.
-/

namespace SS16.Text

/-- White space and commas inside a row. -/
def IsGap (cs : List Char) : Prop := ∀ c ∈ cs, isSeparator c ∧ c ≠ '\n'

/-- Nothing, or a semicolon and all that follows it in a row. -/
def IsComment (cs : List Char) : Prop := cs = [] ∨ ∃ text, cs = ';' :: text ∧ '\n' ∉ text

/-- Words with gaps between them. -/
inductive Spaced : List String → List Char → Prop
  | nil : Spaced [] []
  | word (w : String) : Spaced [w] w.toList
  | cons (w : String) {gap : List Char} {v : String} {ws : List String} {cs : List Char}
    (hgap : IsGap gap) (hne : gap ≠ []) (h : Spaced (v :: ws) cs) :
    Spaced (w :: v :: ws) (w.toList ++ gap ++ cs)

/-- A row that is written with these words: any gaps around them, none of them empty between two
words, and any comment behind them. -/
structure Writes (ws : List String) (raw : String) : Prop where
  plain : ∀ w ∈ ws, IsPlain w
  parts : ∃ before spaced after comment, raw.toList = before ++ spaced ++ after ++ comment ∧
    IsGap before ∧ Spaced ws spaced ∧ IsGap after ∧ IsComment comment

/-- Two rows with the same words, written in any two ways. -/
def SameWords (raw raw' : String) : Prop := ∃ ws, Writes ws raw ∧ Writes ws raw'

variable {ws : List String} {cs : List Char} {raw : String}

/-! ### The words that are read -/

theorem IsGap.ne_semicolon (h : IsGap cs) : ∀ c ∈ cs, c ≠ ';' := by
  rintro c hc rfl
  exact absurd (h _ hc).1 (by decide)

theorem Spaced.ne_semicolon (h : Spaced ws cs) (hws : ∀ w ∈ ws, IsPlain w) :
    ∀ c ∈ cs, c ≠ ';' := by
  induction h with
  | nil => exact fun c hc => absurd hc List.not_mem_nil
  | word w => exact fun c hc => ((hws w List.mem_cons_self).2 c hc).2
  | cons w hgap _ _ ih =>
    obtain ⟨hw, hrest⟩ := List.forall_mem_cons.1 hws
    intro c hc
    rcases List.mem_append.1 hc with hc | hc
    · rcases List.mem_append.1 hc with hc | hc
      · exact (hw.2 c hc).2
      · exact hgap.ne_semicolon c hc
    · exact ih hrest c hc

theorem Spaced.wordsOf_eq (h : Spaced ws cs) (hws : ∀ w ∈ ws, IsPlain w) :
    wordsOf cs = ws.map String.toList := by
  have hword : ∀ {w}, IsPlain w → wordsOf w.toList = [w.toList] := fun hw =>
    wordsOf_eq_singleton hw.1 fun c hc => (hw.2 c hc).1
  induction h with
  | nil => rfl
  | word w => exact hword (hws w List.mem_cons_self)
  | @cons w gap v ws cs hgap hne _ ih =>
    obtain ⟨hw, hrest⟩ := List.forall_mem_cons.1 hws
    obtain ⟨c, gap, rfl⟩ := List.exists_cons_of_ne_nil hne
    obtain ⟨hc, hgap⟩ := List.forall_mem_cons.1 hgap
    rw [List.append_assoc, List.cons_append, wordsOf_append_cons hc.1, hword hw,
      wordsOf_append_left fun d hd => (hgap d hd).1, ih hrest]
    rfl

theorem Writes.codeWords_eq (h : Writes ws raw) : codeWords raw = ws := by
  obtain ⟨before, spaced, after, comment, hraw, hbefore, hspaced, hafter, hcomment⟩ := h.parts
  have hcode : ∀ c ∈ before ++ spaced ++ after, (c != ';') = true := by
    intro c hc
    rw [bne_iff_ne]
    rcases List.mem_append.1 hc with hc | hc
    · rcases List.mem_append.1 hc with hc | hc
      · exact hbefore.ne_semicolon c hc
      · exact hspaced.ne_semicolon h.plain c hc
    · exact hafter.ne_semicolon c hc
  have hcut : code comment = [] := by
    rcases hcomment with rfl | ⟨text, rfl, -⟩ <;> rfl
  have hwords : wordsOf (code raw.toList) = ws.map String.toList := by
    rw [hraw]
    unfold code at hcut ⊢
    rw [List.takeWhile_append_of_pos hcode, hcut, List.append_nil,
      wordsOf_append_right fun c hc => (hafter c hc).1,
      wordsOf_append_left fun c hc => (hbefore c hc).1, hspaced.wordsOf_eq h.plain]
  unfold codeWords
  rw [hwords, List.map_map]
  exact (List.map_congr_left fun w _ => String.ofList_toList).trans (List.map_id _)

/-! ### Every row is one of words -/

theorem Spaced.cons_char {w : String} (h : Spaced (w :: ws) cs) (c : Char) :
    Spaced (String.ofList (c :: w.toList) :: ws) (c :: cs) := by
  have hword : (String.ofList (c :: w.toList)).toList = c :: w.toList := String.toList_ofList
  cases h with
  | word =>
    have hlonger := Spaced.word (String.ofList (c :: w.toList))
    rwa [hword] at hlonger
  | cons _ hgap hne h =>
    have hlonger := Spaced.cons (String.ofList (c :: w.toList)) hgap hne h
    rwa [hword] at hlonger

theorem exists_spaced (h : ∀ c ∈ cs, c ≠ '\n' ∧ c ≠ ';') :
    ∃ ws before spaced after, cs = before ++ spaced ++ after ∧ (∀ w ∈ ws, IsPlain w) ∧
      IsGap before ∧ Spaced ws spaced ∧ IsGap after := by
  have hnil : IsGap [] := fun c hc => absurd hc List.not_mem_nil
  induction cs with
  | nil => exact ⟨[], [], [], [], rfl, List.forall_mem_nil _, hnil, .nil, hnil⟩
  | cons c cs ih =>
    obtain ⟨⟨hline, hcomment⟩, hcs⟩ := List.forall_mem_cons.1 h
    obtain ⟨ws, before, spaced, after, rfl, hws, hbefore, hspaced, hafter⟩ := ih hcs
    cases hc : isSeparator c with
    | true =>
      exact ⟨ws, c :: before, spaced, after, rfl, hws,
        List.forall_mem_cons.2 ⟨⟨hc, hline⟩, hbefore⟩, hspaced, hafter⟩
    | false =>
      have hplain : ∀ {w : List Char}, (∀ d ∈ w, isSeparator d = false ∧ d ≠ ';') →
          IsPlain (String.ofList (c :: w)) := fun hw => by
        unfold IsPlain
        rw [String.toList_ofList]
        exact ⟨List.cons_ne_nil _ _, List.forall_mem_cons.2 ⟨⟨hc, hcomment⟩, hw⟩⟩
      have hsingle : IsPlain (String.ofList [c]) := hplain (List.forall_mem_nil _)
      cases ws with
      | nil =>
        -- the character is the only word, and all that follows it is one gap
        cases hspaced
        refine ⟨[String.ofList [c]], [], [c], before ++ after, by simp,
          List.forall_mem_singleton.2 hsingle, hnil, ?_, fun d hd => ?_⟩
        · have hword := Spaced.word (String.ofList [c])
          rwa [String.toList_ofList] at hword
        · exact (List.mem_append.1 hd).elim (hbefore d) (hafter d)
      | cons v vs =>
        obtain ⟨hv, hvs⟩ := List.forall_mem_cons.1 hws
        by_cases hgap : before = []
        · subst hgap
          exact ⟨_, [], c :: spaced, after, rfl, List.forall_mem_cons.2 ⟨hplain hv.2, hvs⟩, hnil,
            hspaced.cons_char c, hafter⟩
        · have hlonger := Spaced.cons (String.ofList [c]) hbefore hgap hspaced
          rw [String.toList_ofList] at hlonger
          exact ⟨_, [], [c] ++ before ++ spaced, after, by simp,
            List.forall_mem_cons.2 ⟨hsingle, hws⟩, hnil, hlonger, hafter⟩

theorem exists_writes (h : '\n' ∉ raw.toList) : ∃ ws, Writes ws raw := by
  have hsplit := List.takeWhile_append_dropWhile (p := (· != ';')) (l := raw.toList)
  have hcode : ∀ c ∈ raw.toList.takeWhile (· != ';'), c ≠ '\n' ∧ c ≠ ';' := by
    intro c hc
    refine ⟨?_, by simpa using List.mem_takeWhile_imp hc⟩
    rintro rfl
    exact h ((List.takeWhile_sublist _).subset hc)
  have hcomment : IsComment (raw.toList.dropWhile (· != ';')) := by
    have hfirst := List.head?_dropWhile_not (· != ';') raw.toList
    have hrest : '\n' ∉ raw.toList.dropWhile (· != ';') := fun hc =>
      h ((List.dropWhile_sublist _).subset hc)
    cases hd : raw.toList.dropWhile (· != ';') with
    | nil => exact .inl rfl
    | cons c text =>
      rw [hd] at hfirst hrest
      obtain rfl : c = ';' := by simpa using hfirst
      exact .inr ⟨text, rfl, fun hmem => hrest (List.mem_cons_of_mem _ hmem)⟩
  obtain ⟨ws, before, spaced, after, heq, hws, hbefore, hspaced, hafter⟩ := exists_spaced hcode
  rw [heq] at hsplit
  exact ⟨ws, hws, before, spaced, after, _, hsplit.symm, hbefore, hspaced, hafter, hcomment⟩

/-- Rows have the same words exactly if the same words are read from them. -/
theorem sameWords_iff {raw' : String} (h : '\n' ∉ raw.toList) (h' : '\n' ∉ raw'.toList) :
    SameWords raw raw' ↔ codeWords raw = codeWords raw' := by
  constructor
  · rintro ⟨ws, hws, hws'⟩
    exact hws.codeWords_eq.trans hws'.codeWords_eq.symm
  · intro heq
    obtain ⟨ws, hws⟩ := exists_writes h
    obtain ⟨ws', hws'⟩ := exists_writes h'
    obtain rfl : ws = ws' := hws.codeWords_eq.symm.trans (heq.trans hws'.codeWords_eq)
    exact ⟨ws, hws, hws'⟩

theorem forall₂_sameWords_iff {rows rows' : List String} (h : ∀ raw ∈ rows, '\n' ∉ raw.toList)
    (h' : ∀ raw ∈ rows', '\n' ∉ raw.toList) :
    List.Forall₂ SameWords rows rows' ↔ rows.map codeWords = rows'.map codeWords := by
  induction rows generalizing rows' with
  | nil => cases rows' <;> simp
  | cons raw rows ih =>
    cases rows' with
    | nil => simp
    | cons raw' rows' =>
      obtain ⟨hraw, hrows⟩ := List.forall_mem_cons.1 h
      obtain ⟨hraw', hrows'⟩ := List.forall_mem_cons.1 h'
      rw [List.forall₂_cons, sameWords_iff hraw hraw', ih hrows hrows', List.map_cons,
        List.map_cons, List.cons.injEq]

end SS16.Text
