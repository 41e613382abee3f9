import SS16.Assembly.Encoding
import SS16.Proofs.OperandGrammar

/-!
# SS16.Proofs.Emission.Instruction — what an encoded instruction is made of

An instruction that is encoded is a word and the extra words of its operands, at most one of them,
whatever the operation expands to.  Main statements: `Mnemonic.words_of_encodeOperands` and
`Mnemonic.length_of_encodeOperands` (as many bytes as the operands ask for).
-/

namespace SS16

namespace ExtraWord

theorem length_of_encode {symbols : SymbolTable} {loc : UInt16} {w : ExtraWord} {e : EncodedWord}
    (h : w.encode symbols loc = .ok e) : e.bytes.length = 2 := by
  cases w with
  | literal l =>
    obtain ⟨bs, hbs, rfl⟩ := Results.map_eq_ok_iff.1 h
    exact Literal.length_of_bytes hbs
  | reference kind name =>
    obtain ⟨t, -, rfl⟩ := Results.map_eq_ok_iff.1 h
    exact LittleEndian.length_bytes 2 _

theorem exists_encode {symbols : SymbolTable} {w : ExtraWord} (hw : w.WellFormed)
    (ht : ∀ kind n, w = .reference kind n → ∃ t, symbols.target n = .ok t) (loc : UInt16) :
    ∃ e, w.encode symbols loc = .ok e := by
  cases w with
  | literal l =>
    obtain ⟨bs, hbs⟩ := Literal.exists_bytes hw
    exact ⟨_, Results.map_eq_ok_iff.2 ⟨bs, hbs, rfl⟩⟩
  | reference kind n =>
    obtain ⟨t, htn⟩ := ht kind n rfl
    exact ⟨_, Results.map_eq_ok_iff.2 ⟨t, htn, rfl⟩⟩

end ExtraWord

namespace Operand

theorem encode_eq_ok {symbols : SymbolTable} {loc : UInt16} {op : Operand} {e : EncodedOperand}
    (h : op.encode symbols loc = .ok e) :
    op.extra? = none ∧ e.extra = none ∨
      ∃ w ew, op.extra? = some w ∧ e.extra = some ew ∧ w.encode symbols loc = .ok ew := by
  unfold encode at h
  cases hw : op.extra? with
  | none =>
    rw [hw] at h
    cases h
    exact .inl ⟨rfl, rfl⟩
  | some w =>
    rw [hw] at h
    obtain ⟨ew, hew, rfl⟩ := Results.map_eq_ok_iff.1 h
    exact .inr ⟨w, ew, rfl, rfl, hew⟩

theorem extras_of_encode {symbols : SymbolTable} {loc : UInt16} {ops : List Operand}
    {es : List EncodedOperand}
    (h : List.Forall₂ (fun op e => op.encode symbols loc = .ok e) ops es) :
    List.Forall₂ (fun w ew => w.encode symbols loc = .ok ew) (ops.filterMap extra?)
      (es.filterMap EncodedOperand.extra) := by
  induction h with
  | nil => exact .nil
  | @cons op e ops es he _ ih =>
    rcases encode_eq_ok he with ⟨h1, h2⟩ | ⟨w, ew, h1, h2, hw⟩
    · rw [List.filterMap_cons_none h1, List.filterMap_cons_none h2]
      exact ih
    · rw [List.filterMap_cons_some h1, List.filterMap_cons_some h2]
      exact .cons hw ih

theorem instructionSize_eq (ops : List Operand) :
    instructionSize ops = if ops.filterMap extra? = [] then 2 else 4 := by
  unfold instructionSize
  have hany : ops.any hasExtra ↔ ops.filterMap extra? ≠ [] := by
    rw [List.any_eq_true, Ne, List.filterMap_eq_nil_iff]
    push Not
    simp only [hasExtra, Option.isSome_iff_ne_none]
  by_cases h : ops.filterMap extra? = []
  · rw [if_pos h, if_neg]
    exact fun ha => hany.1 ha h
  · rw [if_neg h, if_pos (hany.2 h)]

end Operand

theorem Operation.filterMap_extra?_expand {o : Operation} {ops : List Operand}
    (h : ops.length = o.arity) :
    (o.expand ops).2.filterMap Operand.extra? = ops.filterMap Operand.extra? := by
  cases o with
  | machine c => rfl
  | ret =>
    obtain rfl := List.length_eq_zero_iff.1 h
    rfl
  | jmp =>
    obtain ⟨op, rfl⟩ := List.length_eq_one_iff.1 h
    cases op <;> rfl

namespace Mnemonic

theorem pack_eq (m : Mnemonic) (opcode : Opcode) (es : List EncodedOperand) :
    ∃ word : List UInt8, word.length = 2 ∧
      m.pack opcode es =
        match (es.filterMap EncodedOperand.extra).head? with
        | none => ⟨word, none⟩
        | some e => ⟨word ++ e.bytes, e.relocation⟩ := by
  refine ⟨Instruction.bytes ⟨m.condition, opcode, (es[0]?.map EncodedOperand.field).getD .zero,
    (es[1]?.map EncodedOperand.field).getD .zero⟩, rfl, ?_⟩
  rw [List.head?_filterMap]
  rfl

/-- The checks that are left once the operands are encoded. -/
theorem encodeOperands_of_mapM {m : Mnemonic} {symbols : SymbolTable} {loc : UInt16}
    {ops : List Operand} {es : List EncodedOperand}
    (h : (m.operation.expand ops).2.mapM (Operand.encode symbols loc) = .ok es) :
    m.encodeOperands symbols loc ops =
      if 1 < (es.filterMap EncodedOperand.extra).length then .error .twoExtraWords
      else if m.writesImmediate ops then .error (.immediateDestination m)
      else .ok (m.pack (m.operation.expand ops).1 es) := by
  unfold encodeOperands
  dsimp only
  rw [h, List.length_filterMap_eq_countP]
  rfl

/-- An encoded instruction is a word and the encoded extra words of its operands, of which there is
at most one. -/
theorem words_of_encodeOperands {m : Mnemonic} {symbols : SymbolTable} {loc : UInt16}
    {ops : List Operand} {e : EncodedInstruction} (hlen : ops.length = m.operation.arity)
    (h : m.encodeOperands symbols loc ops = .ok e) :
    ∃ word ews, List.Forall₂ (fun w ew => w.encode symbols loc = .ok ew)
        (ops.filterMap Operand.extra?) ews ∧ ews.length ≤ 1 ∧ word.length = 2 ∧
      e.bytes = word ++ ews.flatMap EncodedWord.bytes ∧
      e.relocation.toList = ews.filterMap EncodedWord.relocation := by
  cases hes : (m.operation.expand ops).2.mapM (Operand.encode symbols loc) with
  | error f =>
    unfold encodeOperands at h
    dsimp only at h
    rw [hes] at h
    cases h
  | ok es =>
    have hwords := Operand.extras_of_encode (Results.mapM_eq_ok_iff.1 hes)
    rw [Operation.filterMap_extra?_expand hlen] at hwords
    rw [encodeOperands_of_mapM hes] at h
    split_ifs at h with hone
    cases h
    obtain ⟨word, hword, hpack⟩ := m.pack_eq (m.operation.expand ops).1 es
    refine ⟨word, _, hwords, by omega, hword, ?_⟩
    rw [hpack]
    generalize es.filterMap EncodedOperand.extra = ews at hone
    match ews, hone with
    | [], _ => simp
    | [ew], _ => cases hr : ew.relocation <;> simp [hr]
    | _ :: _ :: _, hone => simp at hone

theorem encode_eq_ok {m : Mnemonic} {symbols : SymbolTable} {loc : UInt16} {args : List String}
    {e : EncodedInstruction} (h : m.encode symbols loc args = .ok e) :
    ∃ ops, args.mapM Operand.parse = .ok ops ∧ ops.length = m.operation.arity ∧
      m.encodeOperands symbols loc ops = .ok e := by
  unfold encode at h
  split_ifs at h with hlen
  cases hops : args.mapM Operand.parse with
  | error f =>
    rw [hops] at h
    cases h
  | ok ops =>
    rw [hops] at h
    exact ⟨ops, rfl, (Results.mapM_eq_ok_iff.1 hops).length_eq ▸ hlen, h⟩

theorem length_of_encodeOperands {m : Mnemonic} {symbols : SymbolTable} {loc : UInt16}
    {ops : List Operand} {e : EncodedInstruction} (hlen : ops.length = m.operation.arity)
    (h : m.encodeOperands symbols loc ops = .ok e) :
    e.bytes.length = Operand.instructionSize ops := by
  obtain ⟨word, ews, hwords, hone, hword, hbytes, -⟩ := words_of_encodeOperands hlen h
  rw [hbytes, List.length_append, hword, Operand.instructionSize_eq]
  generalize ops.filterMap Operand.extra? = ws at hwords
  cases hwords with
  | nil => rfl
  | @cons w ew ws ews hw hrest =>
    obtain rfl : ews = [] := List.length_eq_zero_iff.1 (by simpa using hone)
    simp [ExtraWord.length_of_encode hw]

end Mnemonic

end SS16
