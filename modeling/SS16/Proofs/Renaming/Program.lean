import SS16.Proofs.Renaming.Words
import SS16.Proofs.Source.Keywords
import SS16.Proofs.Source.Names
import SS16.Source.Program
import Mathlib.Data.List.TakeWhile

/-!
# SS16.Proofs.Renaming.Program — other names in lines and programs

A word that selects a statement is none that a renaming is applied to, so each row is read as the same
line but for names.  Main statements: `Renaming.parse_argWords`, `Renaming.ofWords_lineWords` and
`Renaming.ofRows_eq`.
-/

namespace SS16

namespace Renaming

variable (ρ : Renaming)

def statement : Statement → Statement
  | .data w args => .data w (args.map ρ.ident)
  | .global names => .global (names.map ρ.ident)
  | .instruction m args => .instruction m (args.map ρ.operandWord)
  | s => s

def line (line : Line) : Line :=
  ⟨line.row, line.labels.map ρ.ident, line.statement.map ρ.statement⟩

def program (p : Program) : Program := ⟨p.lines.map ρ.line, p.fault⟩

theorem parse_argWords (word : String) (args : List String) :
    Statement.parse word (ρ.argWords word args) =
      (Statement.parse word args).map ρ.statement := by
  unfold Statement.parse
  cases hk : Keyword.parse? word with
  | none => rfl
  | some k =>
    dsimp only
    unfold argWords
    rcases Keyword.eq_text_of_parse? hk with ⟨rfl, hne⟩ | ⟨m, rfl, hm⟩
    · cases k with
      | stop => rfl
      | enter k => cases k <;> rfl
      | data w => cases w <;> rfl
      | global => rfl
      | skip =>
        show (Statement.countOf .skip args).map _ = ((Statement.countOf .skip args).map _).map _
        cases Statement.countOf .skip args <;> rfl
      | align =>
        show (Statement.countOf .align args).bind _ = ((Statement.countOf .align args).bind _).map _
        cases Statement.countOf .align args with
        | error f => rfl
        | ok n =>
          dsimp only [Except.bind]
          split_ifs <;> rfl
      | instruction m => exact absurd rfl (hne m)
    · have hhead := Mnemonic.head?_of_parse? hm
      rw [if_neg, if_neg hhead]
      · rfl
      · intro hmem
        have hall : ∀ w ∈ [".char", ".word", ".long", ".global"], w.toList.head? = some '.' := by
          decide
        exact hhead (hall word hmem)

/-! ### Labels -/

theorem label?_labelWord (w : String) :
    Line.label? (ρ.labelWord w) = (Line.label? w).map ρ.ident := by
  cases hl : Line.label? w with
  | none =>
    unfold labelWord
    rw [hl]
    exact hl
  | some n =>
    have hn := Line.isValid_of_label? hl
    unfold labelWord ident
    rw [hl, Option.map_some, if_pos hn]
    exact Line.label?_eq_some_iff.2 ⟨ρ.isValid_name n hn, rfl⟩

theorem isLabel_labelWord (w : String) : Line.isLabel (ρ.labelWord w) = Line.isLabel w := by
  unfold Line.isLabel
  rw [ρ.label?_labelWord, Option.isSome_map]

theorem takeWhile_lineWords (words : List String) :
    (ρ.lineWords words).takeWhile Line.isLabel =
      (words.takeWhile Line.isLabel).map ρ.labelWord ∧
    (ρ.lineWords words).dropWhile Line.isLabel =
      match words.dropWhile Line.isLabel with
      | [] => []
      | word :: args => word :: ρ.argWords word args := by
  have hlabels : ∀ w ∈ (words.takeWhile Line.isLabel).map ρ.labelWord, Line.isLabel w := by
    intro w hw
    obtain ⟨v, hv, rfl⟩ := List.mem_map.1 hw
    rw [ρ.isLabel_labelWord]
    exact List.mem_takeWhile_imp hv
  unfold lineWords
  rw [List.takeWhile_append_of_pos hlabels, List.dropWhile_append_of_pos hlabels]
  cases hrest : words.dropWhile Line.isLabel with
  | nil => exact ⟨List.append_nil _, rfl⟩
  | cons word args =>
    have hword : ¬ Line.isLabel word = true := by
      have hfirst := List.head?_dropWhile_not Line.isLabel words
      rw [hrest] at hfirst
      simpa using hfirst
    dsimp only
    rw [List.takeWhile_cons_of_neg hword, List.dropWhile_cons_of_neg hword]
    exact ⟨List.append_nil _, rfl⟩

/-! ### Lines and programs -/

theorem ofWords_lineWords (row : Nat) (words : List String) :
    Line.ofWords row (ρ.lineWords words) = (Line.ofWords row words).map ρ.line := by
  obtain ⟨htake, hdrop⟩ := ρ.takeWhile_lineWords words
  have hlabels : ((words.takeWhile Line.isLabel).map ρ.labelWord).filterMap Line.label? =
      ((words.takeWhile Line.isLabel).filterMap Line.label?).map ρ.ident := by
    rw [List.filterMap_map, List.map_filterMap]
    exact congrArg (fun f => List.filterMap f _) (funext ρ.label?_labelWord)
  unfold Line.ofWords
  rw [htake, hdrop, hlabels]
  cases hrest : words.dropWhile Line.isLabel with
  | nil => rfl
  | cons word args =>
    unfold Line.statementOf
    dsimp only
    rw [ρ.parse_argWords]
    cases Statement.parse word args <;> rfl

theorem statement_eq_stop_iff (line : Line) :
    (ρ.line line).statement = some .stop ↔ line.statement = some .stop := by
  obtain ⟨row, labels, statement⟩ := line
  cases statement with
  | none => exact Iff.rfl
  | some s => cases s <;> simp [Renaming.line, Renaming.statement]

/-- Rows with other names are read as the same program with other names. -/
theorem ofRows_eq {rows rows' : List String}
    (h : rows'.map Text.codeWords = rows.map fun raw => ρ.lineWords (Text.codeWords raw))
    (first : Nat) : Program.ofRows rows' first = ρ.program (Program.ofRows rows first) := by
  induction rows generalizing rows' first with
  | nil =>
    obtain rfl := List.map_eq_nil_iff.1 h
    rfl
  | cons raw rows ih =>
    obtain ⟨raw', rows', rfl, hraw, hrest⟩ := List.map_eq_cons_iff.1 h
    rw [Program.ofRows_cons, Program.ofRows_cons, ih hrest]
    unfold Program.prepend Line.parse
    rw [hraw, ρ.ofWords_lineWords]
    cases hw : Line.ofWords first (Text.codeWords raw) with
    | error f => rfl
    | ok line =>
      dsimp only [Except.map]
      by_cases hs : line.statement = some .stop
      · rw [if_pos hs, if_pos ((ρ.statement_eq_stop_iff line).2 hs)]
        rfl
      · rw [if_neg hs, if_neg fun he => hs ((ρ.statement_eq_stop_iff line).1 he)]
        rfl

end Renaming

end SS16
