import SS16.Proofs.Emission.Sweep
import SS16.Proofs.Renaming.Layout

/-!
# SS16.Proofs.Renaming.Emission — other names and the bytes of a program

Looked up in tables that differ in names alone, other names lead to the same targets.  So lines with
other names lay down the same bytes, relocations and listing entries, or fail with the same kind of
fault.  Main statements: `Renaming.encode_map`, `Renaming.effect_line` and `Renaming.emit_map`.
-/

namespace SS16

namespace Renaming

variable {ρ : Renaming} {t u : SymbolTable}

/-! ### Instructions -/

theorem Tables.target (h : ρ.Tables t u) (n : String) :
    u.target (ρ.ident n) = (t.target n).mapError ρ.fault := by
  unfold SymbolTable.target
  rw [h.get?]
  cases t.get? n with
  | none => rfl
  | some s =>
    obtain ⟨name, home, offset, binding, number⟩ := s
    cases binding <;> cases home <;> rfl

theorem encode_extra (h : ρ.Tables t u) (loc : UInt16) (w : ExtraWord) :
    (ρ.extra w).encode u loc = (w.encode t loc).mapError ρ.fault := by
  cases w with
  | literal l =>
    cases l with
    | decimal v => rfl
    | hex ds =>
      unfold extra ExtraWord.encode Literal.bytes
      dsimp only
      cases Hex.literal? ds <;> rfl
  | reference kind n =>
    show (u.target (ρ.ident n)).map _ = ((t.target n).map _).mapError _
    rw [h.target]
    cases t.target n <;> rfl

theorem field_operand (op : Operand) : (ρ.operand op).field = op.field := by
  cases op with
  | indexed r d => cases d <;> rfl
  | _ => rfl

theorem isImmediate_operand (op : Operand) : (ρ.operand op).isImmediate = op.isImmediate := by
  cases op with
  | indexed r d => cases d <;> rfl
  | _ => rfl

theorem encode_operand (h : ρ.Tables t u) (loc : UInt16) (op : Operand) :
    (ρ.operand op).encode u loc = ((op.encode t loc).map id).mapError ρ.fault := by
  unfold Operand.encode
  rw [ρ.extra?_operand, field_operand]
  cases op.extra? with
  | none => rfl
  | some w =>
    show ((ρ.extra w).encode u loc).map _ = (((w.encode t loc).map _).map id).mapError _
    rw [encode_extra h]
    cases w.encode t loc <;> rfl

theorem expand_map (o : Operation) (ops : List Operand) :
    o.expand (ops.map ρ.operand) = ((o.expand ops).1, (o.expand ops).2.map ρ.operand) := by
  cases o with
  | machine o => rfl
  | ret => rfl
  | jmp =>
    cases ops with
    | nil => rfl
    | cons op ops =>
      cases ops with
      | cons op' ops =>
        cases op with
        | indexed r d => cases d <;> rfl
        | _ => rfl
      | nil =>
        cases op with
        | indexed r d => cases d <;> rfl
        | _ => rfl

theorem encodeOperands_map (h : ρ.Tables t u) (m : Mnemonic) (loc : UInt16) (ops : List Operand) :
    m.encodeOperands u loc (ops.map ρ.operand) =
      (m.encodeOperands t loc ops).mapError ρ.fault := by
  have himmediate : m.writesImmediate (ops.map ρ.operand) = m.writesImmediate ops := by
    unfold Mnemonic.writesImmediate
    rw [List.head?_map, Option.any_map]
    exact congrArg (fun p => _ && Option.any p _) (funext isImmediate_operand)
  unfold Mnemonic.encodeOperands
  dsimp only
  rw [expand_map, Results.mapM_map (encode_operand h loc), himmediate]
  cases (m.operation.expand ops).2.mapM (Operand.encode t loc) with
  | error f => rfl
  | ok encoded =>
    dsimp only [Except.map, Except.mapError, Except.bind]
    rw [List.map_id]
    split_ifs <;> rfl

theorem encode_map (h : ρ.Tables t u) (m : Mnemonic) (loc : UInt16) (args : List String) :
    m.encode u loc (args.map ρ.operandWord) = (m.encode t loc args).mapError ρ.fault := by
  unfold Mnemonic.encode
  rw [List.length_map, Results.mapM_map ρ.parse_operandWord_fault]
  split_ifs
  · cases args.mapM Operand.parse with
    | error f => rfl
    | ok ops => exact encodeOperands_map h m loc ops
  · rfl

/-! ### Fragments -/

variable (ρ) in
def fragment (part : Fragment) : Fragment := ⟨part.relocations, part.bytes.mapError ρ.fault⟩

theorem fragment_append (a b : Fragment) :
    ρ.fragment (a.append b) = (ρ.fragment a).append (ρ.fragment b) := by
  obtain ⟨rs, x⟩ := a
  obtain ⟨ss, y⟩ := b
  cases x with
  | error f => rfl
  | ok xs => cases y <;> rfl

theorem fragment_join (parts : List Fragment) :
    ρ.fragment (.join parts) = .join (parts.map ρ.fragment) := by
  induction parts with
  | nil => rfl
  | cons part parts ih =>
    show ρ.fragment (part.append (.join parts)) = (ρ.fragment part).append (.join _)
    rw [fragment_append, ih]

theorem element_ident (w : Width) (arg : String) (v : Int) :
    w.element (ρ.ident arg) v = (w.element arg v).mapError ρ.fault := by
  unfold Width.element
  cases LittleEndian.encode? w.size v <;> rfl

theorem fragment_ident (h : ρ.Tables t u) (w : Width) (loc : UInt16) (arg : String) :
    w.fragment u loc (ρ.ident arg) = ρ.fragment (w.fragment t loc arg) := by
  unfold Width.fragment
  rw [ρ.integer?_ident, h.target]
  cases Numeral.integer? arg with
  | some v => exact congrArg (Fragment.mk []) (element_ident w arg v)
  | none =>
    cases t.target arg with
    | error f => rfl
    | ok target => exact congrArg (Fragment.mk _) (element_ident w arg _)

theorem fragments_map (h : ρ.Tables t u) (w : Width) (loc : UInt16) (args : List String) :
    w.fragments u loc (args.map ρ.ident) = ρ.fragment (w.fragments t loc args) := by
  unfold Width.fragments
  rw [fragment_join, List.map_map, List.zipIdx_map, List.map_map]
  exact congrArg Fragment.join (List.map_congr_left fun a _ => fragment_ident h w _ a.1)

/-! ### Lines and programs -/

theorem fragment_statement (h : ρ.Tables t u) (p : Place) (s : Statement) :
    (ρ.statement s).fragment u p = ρ.fragment (s.fragment t p) := by
  cases s with
  | data w args =>
    show (if !(args.map ρ.ident).isEmpty && !p.kind.hasContents then .fault .dataInBss
      else w.fragments u p.location (args.map ρ.ident)) = ρ.fragment (if _ then _ else _)
    rw [List.isEmpty_map, fragments_map h]
    split_ifs <;> rfl
  | align n =>
    unfold Statement.fragment statement
    dsimp only
    cases alignUp p.location n <;> rfl
  | instruction m args =>
    show (if p.kind = .text then .ofInstruction (m.encode u p.location (args.map ρ.operandWord))
      else .fault (.instructionIn p.kind)) = ρ.fragment (if _ then _ else _)
    rw [encode_map h]
    split_ifs
    · cases m.encode t p.location args <;> rfl
    · rfl
  | _ => rfl

variable (ρ) in
def effect (e : Effect) : Effect := ⟨e.relocations, e.outcome.mapError ρ.fault⟩

theorem lay_fragment (row : Nat) (p : Place) (part : Fragment) :
    Effect.lay row p (ρ.fragment part) = ρ.effect (Effect.lay row p part) := by
  obtain ⟨rs, bytes⟩ := part
  cases bytes with
  | error f => rfl
  | ok bs =>
    unfold Effect.lay effect fragment
    dsimp only [Except.mapError]
    cases p.advance? bs.length <;> rfl

theorem occupies_statement (s : Statement) : (ρ.statement s).occupies = s.occupies := by
  cases s <;> rfl

theorem labelWord_heading (s : Statement) :
    ρ.labelWord s.heading = (ρ.statement s).heading := by
  cases s with
  | stop => exact ρ.labelWord_text .stop
  | enter k => exact ρ.labelWord_text (.enter k)
  | data w args => exact ρ.labelWord_text (.data w)
  | skip n => exact ρ.labelWord_text .skip
  | align n => exact ρ.labelWord_text .align
  | global names => exact ρ.labelWord_text .global
  | instruction m args => exact ρ.labelWord_text (.instruction m)

theorem effect_line (h : ρ.Tables t u) (here : Option Place) (line : Line) :
    (ρ.line line).effect u here = ρ.effect (line.effect t here) := by
  obtain ⟨row, labels, statement⟩ := line
  cases statement with
  | none => rfl
  | some s =>
    cases ho : s.occupies with
    | false =>
      cases s with
      | stop | enter _ | global _ => rfl
      | _ => cases ho
    | true =>
      have hs : (ρ.line ⟨row, labels, some s⟩).statement = some (ρ.statement s) := rfl
      have ho' : (ρ.statement s).occupies := (occupies_statement s).trans ho
      rw [Line.effect_of_occupies hs ho', Line.effect_of_occupies rfl ho]
      cases here with
      | none =>
        show Effect.mk [] (.error (.outsideSection (ρ.statement s).heading)) =
          Effect.mk [] (.error (.outsideSection (ρ.labelWord s.heading)))
        rw [labelWord_heading]
      | some p =>
        dsimp only
        rw [fragment_statement h, lay_fragment]
        rfl

theorem emit_map (h : ρ.Tables t u) (lines : List Line) (out : Output) (here : Option Place) :
    out.emit u here (lines.map ρ.line) =
      ((out.emit t here lines).1, (out.emit t here lines).2.mapError ρ.located) := by
  induction lines generalizing out here with
  | nil => rfl
  | cons line lines ih =>
    rw [List.map_cons, Output.emit, Output.emit, effect_line h]
    dsimp only [effect]
    cases (line.effect t here).outcome with
    | error f => rfl
    | ok x => exact ih _ _

/-- The second sweep over a program lays down the same, up to the same kind of fault in the same
row. -/
theorem emit_program {p : Program} (hp : ∀ x ∈ p.fault, ρ.fault x.2 = x.2) (h : ρ.Tables t u)
    (out : Output) :
    (ρ.program p).emit u out = ((p.emit t out).1, (p.emit t out).2.map ρ.located) := by
  obtain ⟨lines, fault⟩ := p
  unfold Program.emit program
  dsimp only
  rw [emit_map h]
  generalize out.emit t none lines = x
  obtain ⟨out', result⟩ := x
  cases result with
  | error l => rfl
  | ok here =>
    cases fault with
    | none => rfl
    | some x =>
      have hx : ρ.fault x.2 = x.2 := hp x rfl
      show (out', some (x.2.inRow x.1)) = (out', some (⟨some x.1, ρ.fault x.2⟩ : Located))
      rw [hx]
      rfl

end Renaming

end SS16
