import SS16.Assembly
import SS16.Proofs.OperandGrammar
import SS16.Proofs.Source.Keywords
import Mathlib.Data.List.TakeWhile

/-!
# SS16.Proofs.Shorthands.Instructions — what `ret` and `jmp` are short for

A shorthand is written out with another operation and the program counter as its first operand.  Both
spellings ask the same of the layout and are encoded to the same bytes, although they differ in the
number of operands, in the operand that is written and in how they expand.  Main statements:
`Mnemonic.Expands.operandSteps_eq`, `Mnemonic.Expands.encode_eq` and `Line.exists_writtenOut` (every
shorthand in a row can be written out).
-/

namespace SS16

/-- The shorthands and what they are written out to. -/
inductive Mnemonic.Expands : Mnemonic → List String → Mnemonic → List String → Prop
  /-- `ret` is `pop pc`. -/
  | ret (c : Condition) : Expands ⟨c, .ret⟩ [] ⟨c, .machine .pop⟩ ["pc"]
  /-- `jmp $x` is `add pc, $x`. -/
  | jumpBy (c : Condition) {x : String} (hx : x.toList.head? = some '$') :
    Expands ⟨c, .jmp⟩ [x] ⟨c, .machine .add⟩ ["pc", x]
  /-- Any other `jmp x` is `mov pc, x`. -/
  | jumpTo (c : Condition) {x : String} (hx : x.toList.head? ≠ some '$') :
    Expands ⟨c, .jmp⟩ [x] ⟨c, .machine .mov⟩ ["pc", x]

/-- The words of a row, and its words after the shorthand in it is written out or left alone.  Labels
are kept. -/
inductive Line.WrittenOut : List String → List String → Prop
  | same (words : List String) : WrittenOut words words
  | instruction {labels args args' : List String} {written : String} {m m' : Mnemonic}
    (hl : ∀ w ∈ labels, Line.isLabel w) (hc : m.condition.Written written)
    (h : m.Expands args m' args') :
    WrittenOut (labels ++ (written ++ m.operation.name) :: args)
      (labels ++ (written ++ m'.operation.name) :: args')

namespace Operand

/-- Operands that count from the program counter are those with a dollar sign in front. -/
theorem head?_eq_dollar_iff {x : String} {op : Operand} (h : parse x = .ok op) :
    x.toList.head? = some '$' ↔ ∃ n, op = relative n := by
  constructor
  · intro hx
    obtain ⟨n, hn⟩ := List.head?_eq_some_iff.1 hx
    rw [parse_relative hn] at h
    split_ifs at h
    cases h
    exact ⟨_, rfl⟩
  · rintro ⟨n, rfl⟩
    have hs := spelled_of_parse h
    generalize hop : relative n = op at hs
    generalize x.toList = ts at hs
    cases hs with
    | relative _ => rfl
    | literal hframe _ => cases hframe <;> cases hop
    | _ => cases hop

theorem parse_pc : parse "pc" = .ok (pointer .pc) := by decide

theorem mapM_parse_pc (args : List String) :
    ("pc" :: args).mapM parse = (args.mapM parse).map (pointer .pc :: ·) := by
  rw [List.mapM_cons, parse_pc]
  cases args.mapM parse <;> rfl

end Operand

namespace Mnemonic

/-- The program counter is not written twice: an operation on it is checked no further than the
shorthand. -/
theorem encodeOperands_jmp {c : Condition} {op : Operand} {o : Opcode}
    (ho : Operation.expand [op] .jmp = (o, [.pointer .pc, op])) (symbols : SymbolTable)
    (loc : UInt16) :
    encodeOperands ⟨c, .jmp⟩ symbols loc [op] =
      encodeOperands ⟨c, .machine o⟩ symbols loc [.pointer .pc, op] := by
  have hpc : writesImmediate ⟨c, .machine o⟩ [.pointer .pc, op] = false := Bool.and_false _
  unfold encodeOperands
  dsimp only
  rw [hpc, ho]
  rfl

namespace Expands

variable {m m' : Mnemonic} {args args' : List String}

theorem condition_eq (h : m.Expands args m' args') : m'.condition = m.condition := by
  cases h <;> rfl

theorem args_eq (h : m.Expands args m' args') : args' = "pc" :: args := by
  cases h <;> rfl

theorem length_eq (h : m.Expands args m' args') :
    args.length = m.operation.arity ∧ args'.length = m'.operation.arity := by
  cases h <;> exact ⟨rfl, rfl⟩

theorem operandSteps_eq (h : m.Expands args m' args') :
    Statement.operandSteps args' = Statement.operandSteps args := by
  unfold Statement.operandSteps
  rw [h.args_eq, Operand.mapM_parse_pc]
  cases args.mapM Operand.parse <;> rfl

theorem encodeOperands_eq {ops : List Operand} (h : m.Expands args m' args')
    (hops : args.mapM Operand.parse = .ok ops) (symbols : SymbolTable) (loc : UInt16) :
    m'.encodeOperands symbols loc (.pointer .pc :: ops) = m.encodeOperands symbols loc ops := by
  have hall := Results.mapM_eq_ok_iff.1 hops
  cases h with
  | ret c =>
    obtain rfl := List.forall₂_nil_left_iff.1 hall
    rfl
  | jumpBy c hx =>
    obtain ⟨op, ops, hop, hrest, rfl⟩ := List.forall₂_cons_left_iff.1 hall
    obtain rfl := List.forall₂_nil_left_iff.1 hrest
    obtain ⟨n, rfl⟩ := (Operand.head?_eq_dollar_iff hop).1 hx
    exact (encodeOperands_jmp rfl symbols loc).symm
  | jumpTo c hx =>
    obtain ⟨op, ops, hop, hrest, rfl⟩ := List.forall₂_cons_left_iff.1 hall
    obtain rfl := List.forall₂_nil_left_iff.1 hrest
    refine (encodeOperands_jmp ?_ symbols loc).symm
    cases op with
    | relative n => exact absurd ((Operand.head?_eq_dollar_iff hop).2 ⟨n, rfl⟩) hx
    | _ => rfl

/-- A shorthand is encoded as what it is written out to, and refused for the same faults. -/
theorem encode_eq (h : m.Expands args m' args') (symbols : SymbolTable) (loc : UInt16) :
    m'.encode symbols loc args' = m.encode symbols loc args := by
  obtain ⟨hlen, hlen'⟩ := h.length_eq
  unfold encode
  rw [if_pos hlen, if_pos hlen', h.args_eq, Operand.mapM_parse_pc]
  cases hops : args.mapM Operand.parse with
  | error f => rfl
  | ok ops => exact h.encodeOperands_eq hops symbols loc

end Expands

end Mnemonic

/-! ### Rows -/

namespace Line

theorem ofWords_of_written {labels args : List String} {written : String} {m : Mnemonic}
    (hl : ∀ w ∈ labels, isLabel w) (hc : m.condition.Written written) (row : Nat) :
    ofWords row (labels ++ (written ++ m.operation.name) :: args) =
      .ok ⟨row, labels.filterMap label?, some (.instruction m args)⟩ := by
  have hlabel : ¬ isLabel (written ++ m.operation.name) := by
    rw [not_isLabel_of_written hc]
    exact Bool.false_ne_true
  unfold ofWords statementOf Statement.parse
  rw [List.dropWhile_append_of_pos hl, List.takeWhile_append_of_pos hl,
    List.dropWhile_cons_of_neg hlabel, List.takeWhile_cons_of_neg hlabel, List.append_nil]
  dsimp only
  rw [Keyword.parse?_of_written hc]
  rfl

theorem exists_written_of_ofWords {words labels args : List String} {m : Mnemonic} {row : Nat}
    (h : ofWords row words = .ok ⟨row, labels, some (.instruction m args)⟩) :
    ∃ marks written, (∀ w ∈ marks, isLabel w) ∧ m.condition.Written written ∧
      words = marks ++ (written ++ m.operation.name) :: args := by
  have hsplit := List.takeWhile_append_dropWhile (p := isLabel) (l := words)
  obtain ⟨s, hs, he⟩ := Results.map_eq_ok_iff.1 h
  cases he
  generalize words.dropWhile isLabel = rest at hs hsplit
  cases rest with
  | nil => cases hs
  | cons word rest =>
    obtain ⟨s, hs, he⟩ := Results.map_eq_ok_iff.1 hs
    cases he
    obtain ⟨k, hk, hmakes⟩ := Statement.exists_makes hs
    cases hmakes with
    | instruction =>
      obtain ⟨written, hc, rfl⟩ :=
        Mnemonic.parse?_eq_some_iff.1 (Keyword.parse?_eq_instruction_iff.1 hk)
      exact ⟨_, written, fun w hw => List.mem_takeWhile_imp hw, hc, hsplit.symm⟩

/-- Every shorthand can be written out. -/
theorem exists_writtenOut {words labels args args' : List String} {m m' : Mnemonic} {row : Nat}
    (hline : ofWords row words = .ok ⟨row, labels, some (.instruction m args)⟩)
    (h : m.Expands args m' args') :
    ∃ words', WrittenOut words words' ∧
      ofWords row words' = .ok ⟨row, labels, some (.instruction m' args')⟩ := by
  obtain ⟨marks, written, hl, hc, rfl⟩ := exists_written_of_ofWords hline
  cases (ofWords_of_written hl hc row).symm.trans hline
  exact ⟨_, .instruction hl hc h, ofWords_of_written hl (h.condition_eq ▸ hc) row⟩

/-- Lines that are the same, or of which one has a shorthand and the other has it written out. -/
inductive Alike : Line → Line → Prop
  | same (line : Line) : Alike line line
  | instruction {row : Nat} {labels args args' : List String} {m m' : Mnemonic}
    (h : m.Expands args m' args') :
    Alike ⟨row, labels, some (.instruction m args)⟩ ⟨row, labels, some (.instruction m' args')⟩

theorem WrittenOut.parse {raw raw' : String}
    (h : WrittenOut (Text.codeWords raw) (Text.codeWords raw')) (row : Nat) :
    parse row raw' = parse row raw ∨
      ∃ line line', parse row raw = .ok line ∧ parse row raw' = .ok line' ∧ line.Alike line' := by
  unfold Line.parse
  generalize Text.codeWords raw = words at h
  generalize Text.codeWords raw' = words' at h
  cases h with
  | same => exact .inl rfl
  | instruction hl hc h =>
    have hc' := h.condition_eq ▸ hc
    exact .inr ⟨_, _, ofWords_of_written hl hc row, ofWords_of_written hl hc' row, .instruction h⟩

end Line

end SS16
