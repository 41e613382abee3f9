import SS16.Assembly.Layout
import SS16.Proofs.OperandGrammar

/-!
# SS16.Proofs.Source.TextFaults — what is wrong with a row by itself

A row is refused for the words that it is made of, or for an argument of its statement.  These
faults are of six kinds, and none of them tells of another row.  Main statements:
`Line.ofStatement_of_parse` and `Program.textual_of_mem_steps`.
-/

namespace SS16

/-- The faults of a directive or of the word in front of a statement. -/
inductive Fault.OfStatement : Fault → Prop
  | invalidArgument (directive argument : String) :
    OfStatement (.invalidArgument directive argument)
  | invalidAlignment (n : UInt16) : OfStatement (.invalidAlignment n)
  | unknownStatement (word : String) : OfStatement (.unknownStatement word)
  | unknownMnemonic (word : String) : OfStatement (.unknownMnemonic word)

/-- The faults that the words of a row can have, those of operands among them. -/
inductive Fault.Textual : Fault → Prop
  | statement {f : Fault} (h : f.OfStatement) : Textual f
  | unrecognizedOperand (token : String) : Textual (.unrecognizedOperand token)
  | literalOverflow (token : String) (size : Nat) : Textual (.literalOverflow token size)

namespace Statement

theorem ofStatement_of_countOf {k : Keyword} {args : List String} {f : Fault}
    (h : countOf k args = .error f) : f.OfStatement := by
  have hf : f = .invalidArgument k.text (String.intercalate " " args) := by
    unfold countOf at h
    dsimp only at h
    split at h
    · rename_i arg
      cases hc : count? arg with
      | none => rw [hc] at h; exact (Except.error.inj h).symm
      | some n => rw [hc] at h; cases h
    · exact (Except.error.inj h).symm
  rw [hf]
  exact .invalidArgument _ _

theorem ofStatement_of_parse {word : String} {args : List String} {f : Fault}
    (h : parse word args = .error f) : f.OfStatement := by
  unfold parse at h
  split at h
  · rename_i k _
    cases k with
    | skip => exact ofStatement_of_countOf (Results.map_eq_error_iff.1 h)
    | align =>
      change (countOf .align args).bind _ = _ at h
      cases hc : countOf .align args with
      | error g =>
        rw [hc] at h
        cases h
        exact ofStatement_of_countOf hc
      | ok n =>
        rw [hc] at h
        dsimp only [Except.bind] at h
        split_ifs at h
        cases h
        exact .invalidAlignment n
    | _ => cases h
  · cases h
    unfold unknown
    split_ifs
    · exact .unknownMnemonic word
    · exact .unknownStatement word

theorem textual_of_mem_steps {s : Statement} {f : Fault} (h : Step.refuse f ∈ s.steps) :
    f.Textual := by
  cases s with
  | data w args =>
    simp only [steps, List.mem_cons, List.mem_append, List.mem_filterMap, reduceCtorEq,
      List.not_mem_nil, or_false, false_or] at h
    obtain ⟨arg, -, harg⟩ := h
    unfold dataStep at harg
    split_ifs at harg <;> cases harg
    exact .statement (.invalidArgument _ _)
  | global names =>
    obtain ⟨n, -, hn⟩ := List.mem_map.1 h
    unfold shareStep at hn
    split_ifs at hn
    cases hn
    exact .statement (.invalidArgument _ _)
  | instruction m args =>
    simp only [steps, List.mem_cons, reduceCtorEq, false_or] at h
    unfold operandSteps at h
    split at h
    · rename_i g hg
      obtain rfl := Step.refuse.inj (List.mem_singleton.1 h)
      obtain ⟨_, token, _, -, -, hp⟩ := Results.mapM_eq_error_iff.1 hg
      rcases Operand.fault_of_parse hp with ⟨rfl, -⟩ | rfl
      · exact .literalOverflow token 2
      · exact .unrecognizedOperand token
    · simp at h
  | stop | enter k | skip n | align n => simp [steps] at h

end Statement

theorem Line.ofStatement_of_parse {row : Nat} {raw : String} {f : Fault}
    (h : parse row raw = .error f) : f.OfStatement := by
  have hst := Results.map_eq_error_iff.1 h
  unfold statementOf at hst
  split at hst
  · cases hst
  · exact Statement.ofStatement_of_parse (Results.map_eq_error_iff.1 hst)

theorem Line.textual_of_mem_steps {line : Line} {f : Fault} (h : Step.refuse f ∈ line.steps) :
    f.Textual := by
  rcases List.mem_append.1 h with h | h
  · obtain ⟨n, -, hn⟩ := List.mem_map.1 h
    cases hn
  · cases hs : line.statement with
    | none => simp [hs] at h
    | some s => exact Statement.textual_of_mem_steps (by simpa [hs] using h)

namespace Program

theorem ofStatement_of_ofRows {rows : List String} {first : Nat} {x : Nat × Fault}
    (h : (ofRows rows first).fault = some x) : x.2.OfStatement := by
  induction rows generalizing first with
  | nil => cases h
  | cons raw rows ih =>
    rw [ofRows_cons] at h
    unfold prepend at h
    split at h
    · rename_i f hf
      cases h
      exact Line.ofStatement_of_parse hf
    · split_ifs at h
      exact ih h

/-- The steps of a source that are refused as such are so for the words of their row. -/
theorem textual_of_mem_steps {source : String} {x : Nat × Step} {f : Fault}
    (hx : x ∈ (ofSource source).steps) (hf : x.2 = .refuse f) : f.Textual := by
  rcases List.mem_append.1 hx with hx | hx
  · obtain ⟨line, -, hx⟩ := List.mem_flatMap.1 hx
    obtain ⟨s, hs, rfl⟩ := List.mem_map.1 hx
    obtain rfl : s = .refuse f := hf
    exact Line.textual_of_mem_steps hs
  · obtain ⟨g, hg, rfl⟩ := Option.map_eq_some_iff.1 (Option.mem_toList.1 hx)
    obtain rfl := Step.refuse.inj hf
    exact .statement (ofStatement_of_ofRows hg)

end Program

end SS16
