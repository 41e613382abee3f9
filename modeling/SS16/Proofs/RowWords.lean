import SS16.Proofs.Source.Keywords
import SS16.Proofs.Source.Names
import Mathlib.Data.List.TakeWhile

/-!
# SS16.Proofs.RowWords — what a line keeps of the words of its row

A line tells its labels, the word that selects its statement and all of its arguments, but for the
way in which a condition or a count is written.  Words are lost in one case only: whatever stands
behind `.end` or behind the name of a section is passed over.  Main statements:
`Line.parse_iff_words` and `Line.forall₂_sameWord_of_parse` (two rows that are read as one line).
-/

namespace SS16

/-! ### Statements -/

namespace Statement

/-- The words of a statement.  A condition can be written in two ways, and a count in many. -/
inductive Spelled : Statement → List String → Prop
  | stop : Spelled .stop [Keyword.stop.text]
  | enter (k : Section) : Spelled (.enter k) [k.name]
  | data (w : Width) (args : List String) : Spelled (.data w args) (w.name :: args)
  | skip {count : String} {n : UInt16} (h : count? count = some n) :
    Spelled (.skip n) [Keyword.skip.text, count]
  | align {count : String} {n : UInt16} (h : count? count = some n)
    (hn : n = 0 ∨ isPowerOfTwo n) : Spelled (.align n) [Keyword.align.text, count]
  | global (names : List String) : Spelled (.global names) (Keyword.global.text :: names)
  | instruction (m : Mnemonic) {written : String} (h : m.condition.Written written)
    (args : List String) : Spelled (.instruction m args) ((written ++ m.operation.name) :: args)

/-- The statements that pass over what stands behind their words. -/
inductive PassesOver : Statement → Prop
  | stop : PassesOver .stop
  | enter (k : Section) : PassesOver (.enter k)

variable {s : Statement} {word : String} {args : List String}

theorem countOf_eq_ok_iff {k : Keyword} {n : UInt16} :
    countOf k args = .ok n ↔ ∃ count, args = [count] ∧ count? count = some n := by
  unfold countOf
  dsimp only
  split
  · rename_i count
    cases hc : count? count with
    | none => simp [hc]
    | some m => simp [hc]
  · rename_i hne
    constructor
    · intro h
      cases h
    · rintro ⟨count, rfl, -⟩
      exact absurd rfl (hne count)

/-- A statement is read from its words, and from others behind them only if it passes over these. -/
theorem exists_spelled_of_parse (h : parse word args = .ok s) :
    ∃ words lost, word :: args = words ++ lost ∧ s.Spelled words ∧
      (lost = [] ∨ s.PassesOver) := by
  unfold parse at h
  cases hk : Keyword.parse? word with
  | none =>
    rw [hk] at h
    cases h
  | some k =>
    rw [hk] at h
    dsimp only at h
    rcases Keyword.eq_text_of_parse? hk with ⟨rfl, hdirective⟩ | ⟨m, rfl, hm⟩
    · cases k with
      | stop =>
        cases h
        exact ⟨_, args, rfl, .stop, .inr .stop⟩
      | enter k =>
        cases h
        exact ⟨_, args, rfl, .enter k, .inr (.enter k)⟩
      | data w =>
        cases h
        exact ⟨_, [], (List.append_nil _).symm, .data w args, .inl rfl⟩
      | skip =>
        obtain ⟨n, hn, rfl⟩ := Results.map_eq_ok_iff.1 h
        obtain ⟨count, rfl, hc⟩ := countOf_eq_ok_iff.1 hn
        exact ⟨_, [], (List.append_nil _).symm, .skip hc, .inl rfl⟩
      | align =>
        obtain ⟨n, hn, hs⟩ := Results.bind_eq_ok_iff.1 h
        obtain ⟨count, rfl, hc⟩ := countOf_eq_ok_iff.1 hn
        split_ifs at hs with hpower
        cases hs
        exact ⟨_, [], (List.append_nil _).symm, .align hc hpower, .inl rfl⟩
      | global =>
        cases h
        exact ⟨_, [], (List.append_nil _).symm, .global args, .inl rfl⟩
      | instruction m => exact absurd rfl (hdirective m)
    · cases h
      obtain ⟨written, hc, rfl⟩ := Mnemonic.parse?_eq_some_iff.1 hm
      exact ⟨_, [], (List.append_nil _).symm, .instruction m hc args, .inl rfl⟩

theorem Spelled.parse_eq (hs : s.Spelled (word :: args)) : parse word args = .ok s := by
  unfold parse
  cases hs with
  | stop => rfl
  | enter k =>
    rw [show Keyword.parse? k.name = _ from Keyword.parse?_text (.enter k)]
    rfl
  | data w args =>
    rw [show Keyword.parse? w.name = _ from Keyword.parse?_text (.data w)]
    rfl
  | @skip count n h =>
    rw [Keyword.parse?_text]
    exact Results.map_eq_ok_iff.2 ⟨n, countOf_eq_ok_iff.2 ⟨count, rfl, h⟩, rfl⟩
  | @align count n h hn =>
    rw [Keyword.parse?_text]
    exact Results.bind_eq_ok_iff.2 ⟨n, countOf_eq_ok_iff.2 ⟨count, rfl, h⟩, if_pos hn⟩
  | global names =>
    rw [Keyword.parse?_text]
    rfl
  | instruction m hc args =>
    rw [Keyword.parse?_of_written hc]
    rfl

theorem Spelled.parse_append {lost : List String} (hs : s.Spelled (word :: args))
    (hlost : lost = [] ∨ s.PassesOver) : parse word (args ++ lost) = .ok s := by
  rcases hlost with rfl | hp
  · rw [List.append_nil]
    exact hs.parse_eq
  · unfold parse
    cases hp with
    | stop =>
      cases hs
      rfl
    | enter k =>
      cases hs
      rw [show Keyword.parse? k.name = _ from Keyword.parse?_text (.enter k)]
      rfl

theorem Spelled.exists_cons {words : List String} (h : s.Spelled words) :
    ∃ word args, words = word :: args ∧ Line.isLabel word = false := by
  have htext : ∀ k : Keyword, Line.isLabel k.text = false := fun k => by
    unfold Line.isLabel
    rw [k.label?_text]
    rfl
  cases h with
  | stop => exact ⟨_, _, rfl, htext .stop⟩
  | enter k => exact ⟨_, _, rfl, htext (.enter k)⟩
  | data w args => exact ⟨_, _, rfl, htext (.data w)⟩
  | skip => exact ⟨_, _, rfl, htext .skip⟩
  | align => exact ⟨_, _, rfl, htext .align⟩
  | global names => exact ⟨_, _, rfl, htext .global⟩
  | instruction m hc args => exact ⟨_, _, rfl, Line.not_isLabel_of_written hc m.operation⟩

/-- Two words that mean the same to a statement: the mnemonic of one operation, with its condition
written or not, or two spellings of one count. -/
inductive SameWord : String → String → Prop
  | same (word : String) : SameWord word word
  | mnemonic {m : Mnemonic} {written written' : String} (h : m.condition.Written written)
    (h' : m.condition.Written written') :
    SameWord (written ++ m.operation.name) (written' ++ m.operation.name)
  | count {n : UInt16} {count count' : String} (h : count? count = some n)
    (h' : count? count' = some n) : SameWord count count'

theorem forall₂_sameWord_refl (words : List String) : List.Forall₂ SameWord words words :=
  List.forall₂_same.2 fun word _ => .same word

theorem Spelled.forall₂_sameWord {words words' : List String} (h : s.Spelled words)
    (h' : s.Spelled words') : List.Forall₂ SameWord words words' := by
  cases h with
  | stop | enter k | data w args | global names =>
    cases h'
    exact forall₂_sameWord_refl _
  | skip h =>
    cases h' with
    | skip h' => exact .cons (.same _) (.cons (.count h h') .nil)
  | align h =>
    cases h' with
    | align h' => exact .cons (.same _) (.cons (.count h h') .nil)
  | instruction m h args =>
    cases h' with
    | instruction _ h' => exact .cons (.mnemonic h h') (forall₂_sameWord_refl args)

end Statement

/-! ### Lines -/

namespace Line

theorem map_filterMap_label? {words : List String} (h : ∀ w ∈ words, isLabel w) :
    (words.filterMap label?).map (· ++ ":") = words := by
  induction words with
  | nil => rfl
  | cons w words ih =>
    obtain ⟨hw, hwords⟩ := List.forall_mem_cons.1 h
    obtain ⟨n, hn⟩ := Option.isSome_iff_exists.1 hw
    rw [List.filterMap_cons_some hn, List.map_cons, ih hwords, ← (label?_eq_some_iff.1 hn).2]

theorem filterMap_label?_map {names : List String} (h : ∀ n ∈ names, Identifier.isValid n) :
    (names.map (· ++ ":")).filterMap label? = names := by
  rw [List.filterMap_map]
  refine (List.filterMap_congr fun n hn => ?_).trans List.filterMap_some
  exact label?_eq_some_iff.2 ⟨h n hn, rfl⟩

/-- The words of a line: its labels, each with a colon behind it, and those of its statement. -/
inductive Spelled : Line → List String → Prop
  | labels {row : Nat} {labels : List String} (h : ∀ n ∈ labels, Identifier.isValid n) :
    Spelled ⟨row, labels, none⟩ (labels.map (· ++ ":"))
  | statement {row : Nat} {labels words : List String} {s : Statement}
    (h : ∀ n ∈ labels, Identifier.isValid n) (hs : s.Spelled words) :
    Spelled ⟨row, labels, some s⟩ (labels.map (· ++ ":") ++ words)

variable {row : Nat} {raw : String} {line : Line}

theorem exists_spelled_of_parse (h : parse row raw = .ok line) :
    ∃ words lost, Text.codeWords raw = words ++ lost ∧ line.Spelled words ∧
      (lost = [] ∨ ∃ s, line.statement = some s ∧ s.PassesOver) := by
  unfold parse ofWords at h
  generalize Text.codeWords raw = all at h ⊢
  obtain ⟨s, hs, rfl⟩ := Results.map_eq_ok_iff.1 h
  have hsplit := List.takeWhile_append_dropWhile (p := isLabel) (l := all)
  have hmarks : ∀ w ∈ all.takeWhile isLabel, isLabel w := fun w hw => List.mem_takeWhile_imp hw
  generalize all.takeWhile isLabel = marks at hsplit hmarks
  generalize all.dropWhile isLabel = rest at hsplit hs
  have hvalid : ∀ n ∈ marks.filterMap label?, Identifier.isValid n := fun n hn => by
    obtain ⟨w, -, hw⟩ := List.mem_filterMap.1 hn
    exact (label?_eq_some_iff.1 hw).1
  have hlabels := map_filterMap_label? hmarks
  cases rest with
  | nil =>
    cases hs
    have hspelled : Spelled ⟨row, marks.filterMap label?, none⟩ _ := .labels hvalid
    rw [hlabels] at hspelled
    exact ⟨marks, [], hsplit.symm, hspelled, .inl rfl⟩
  | cons word args =>
    obtain ⟨s, hparse, rfl⟩ := Results.map_eq_ok_iff.1 hs
    obtain ⟨words, lost, hwords, hst, hlost⟩ := Statement.exists_spelled_of_parse hparse
    have hspelled : Spelled ⟨row, marks.filterMap label?, some s⟩ _ := .statement hvalid hst
    rw [hlabels] at hspelled
    refine ⟨marks ++ words, lost, ?_, hspelled, hlost.imp_right fun hp => ⟨s, rfl, hp⟩⟩
    rw [← hsplit, hwords, List.append_assoc]

theorem Spelled.parse_eq {words lost : List String} (h : line.Spelled words)
    (hcode : Text.codeWords raw = words ++ lost)
    (hlost : lost = [] ∨ ∃ s, line.statement = some s ∧ s.PassesOver) :
    parse line.row raw = .ok line := by
  have hmarks : ∀ {labels : List String}, (∀ n ∈ labels, Identifier.isValid n) →
      ∀ w ∈ labels.map (· ++ ":"), isLabel w := fun hvalid w hw => by
    obtain ⟨n, hn, rfl⟩ := List.mem_map.1 hw
    exact Option.isSome_iff_exists.2 ⟨n, label?_eq_some_iff.2 ⟨hvalid n hn, rfl⟩⟩
  unfold parse ofWords
  rw [hcode]
  cases h with
  | @labels row labels hvalid =>
    obtain rfl : lost = [] := hlost.resolve_right (by simp)
    rw [List.takeWhile_append_of_pos (hmarks hvalid), List.dropWhile_append_of_pos (hmarks hvalid),
      List.takeWhile_nil, List.append_nil, filterMap_label?_map hvalid]
    rfl
  | @statement row labels words s hvalid hs =>
    obtain ⟨word, args, rfl, hword⟩ := hs.exists_cons
    have hhead : ¬ isLabel word = true := by simp [hword]
    have hparse : Statement.parse word (args ++ lost) = .ok s :=
      hs.parse_append (by simpa using hlost)
    rw [List.append_assoc, List.takeWhile_append_of_pos (hmarks hvalid),
      List.dropWhile_append_of_pos (hmarks hvalid), List.cons_append,
      List.takeWhile_cons_of_neg hhead, List.dropWhile_cons_of_neg hhead, List.append_nil,
      filterMap_label?_map hvalid]
    unfold statementOf
    dsimp only
    rw [hparse]
    rfl

/-- A row is read as a line exactly if it has the words of the line and no others, unless the line
ends the source or opens a section: then any words can stand behind its own, and they are lost. -/
theorem parse_iff_words :
    parse row raw = .ok line ↔ line.row = row ∧ ∃ words lost,
      Text.codeWords raw = words ++ lost ∧ line.Spelled words ∧
        (lost = [] ∨ ∃ s, line.statement = some s ∧ s.PassesOver) := by
  constructor
  · intro h
    exact ⟨row_of_parse h, exists_spelled_of_parse h⟩
  · rintro ⟨rfl, words, lost, hcode, hspelled, hlost⟩
    exact hspelled.parse_eq hcode hlost

/-- What stands behind the name of a section is lost. -/
example : parse 0 "a: .text iret" = parse 0 "a: .text" := by decide +kernel

/-- Two rows that are read as the same line have the same words, unless it passes over some. -/
theorem forall₂_sameWord_of_parse {raw' : String} (h : parse row raw = .ok line)
    (h' : parse row raw' = .ok line)
    (hs : ∀ s, line.statement = some s → ¬ s.PassesOver) :
    List.Forall₂ Statement.SameWord (Text.codeWords raw) (Text.codeWords raw') := by
  have hwords : ∀ {raw : String}, parse row raw = .ok line → line.Spelled (Text.codeWords raw) := by
    intro raw h
    obtain ⟨words, lost, hcode, hspelled, hlost⟩ := exists_spelled_of_parse h
    have hnil : lost = [] := hlost.resolve_right fun ⟨s, hst, hp⟩ => hs s hst hp
    rw [hcode, hnil, List.append_nil]
    exact hspelled
  have hspelled := hwords h
  have hspelled' := hwords h'
  generalize Text.codeWords raw = words at hspelled
  generalize Text.codeWords raw' = words' at hspelled'
  cases hspelled with
  | labels =>
    cases hspelled'
    exact Statement.forall₂_sameWord_refl _
  | statement _ hst =>
    cases hspelled' with
    | statement _ hst' =>
      exact List.rel_append (Statement.forall₂_sameWord_refl _) (hst.forall₂_sameWord hst')

end Line

end SS16
