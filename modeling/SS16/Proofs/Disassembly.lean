import SS16.Proofs.Along
import SS16.Proofs.Emission.Sweep
import SS16.Proofs.InstructionWord

/-!
# SS16.Proofs.Disassembly — instructions are read back from the bytes of `.text`

An instruction word tells by itself whether an extra word follows, so bytes can be read from the
start of a section on, one instruction after another (`Instruction.sweep`).  Main statements:
`Mnemonic.sweep_encodeOperands` (one instruction is read back) and `sweep_contents_of_assemble` (so
are all instructions of a section that holds nothing else).
-/

namespace SS16

/-! ### Reading bytes -/

namespace Instruction

def operandFields (i : Instruction) : List Field :=
  [i.first, i.second].take (Operation.machine i.opcode).arity

/-- Whether an extra word follows: some operand is no plain register. -/
def hasExtra (i : Instruction) : Bool :=
  i.operandFields.any fun f => f.mode ≠ .register

/-- The instructions that bytes hold, each with its address, if they hold nothing else. -/
def sweep (offset : Nat) : List UInt8 → Option (List (Nat × Instruction))
  | [] => some []
  | [_] => none
  | high :: low :: rest =>
    let i := ofWord (wordOf high low)
    if i.hasExtra then
      match rest with
      | _ :: _ :: rest => (sweep (offset + 4) rest).map ((offset, i) :: ·)
      | _ => none
    else (sweep (offset + 2) rest).map ((offset, i) :: ·)

theorem wordOf_bytes (i : Instruction) :
    ∃ high low, i.bytes = [high, low] ∧ ofWord (wordOf high low) = i := by
  refine ⟨_, _, rfl, ?_⟩
  have hlt := i.word.toNat_lt
  have hword : wordOf (UInt8.ofNat (i.word.toNat / 256)) (UInt8.ofNat i.word.toNat) = i.word := by
    rw [← UInt16.toNat_inj, wordOf, UInt16.toNat_ofNat', UInt8.toNat_ofNat', UInt8.toNat_ofNat']
    omega
  rw [hword, ofWord_word]

theorem sweep_append {i : Instruction} {extra : List UInt8}
    (hextra : extra.length = if i.hasExtra then 2 else 0) (offset : Nat) (rest : List UInt8) :
    sweep offset (i.bytes ++ extra ++ rest) =
      (sweep (offset + (i.bytes ++ extra).length) rest).map ((offset, i) :: ·) := by
  obtain ⟨high, low, hbytes, hword⟩ := i.wordOf_bytes
  rw [hbytes]
  by_cases hi : i.hasExtra
  · rw [if_pos hi] at hextra
    obtain ⟨a, b, rfl⟩ := List.length_eq_two.1 hextra
    show sweep offset (high :: low :: a :: b :: rest) = _
    rw [sweep]
    simp only [hword, hi, if_true]
    rfl
  · rw [if_neg hi] at hextra
    obtain rfl := List.length_eq_zero_iff.1 hextra
    show sweep offset (high :: low :: rest) = _
    rw [sweep.eq_def]
    simp only [hword, hi]
    rfl

end Instruction

/-! ### One instruction -/

theorem Operand.mode_field_eq_register_iff {op : Operand} :
    op.field.mode = .register ↔ op.extra? = none := by
  cases op with
  | indexed r d => cases d <;> simp [field, extra?, Field.indexed]
  | _ => simp [field, extra?, Field.zero, Field.direct, Field.memory, Field.relative]

theorem Operand.field_of_encode {symbols : SymbolTable} {loc : UInt16} {op : Operand}
    {e : EncodedOperand} (h : op.encode symbols loc = .ok e) : e.field = op.field := by
  unfold encode at h
  split at h
  · cases h
    rfl
  · obtain ⟨ew, -, rfl⟩ := Results.map_eq_ok_iff.1 h
    rfl

theorem Operation.arity_le_two (o : Operation) : o.arity ≤ 2 := by
  cases o with
  | machine c => cases c <;> decide
  | ret | jmp => decide

theorem Operation.length_expand {o : Operation} {ops : List Operand} (h : ops.length = o.arity) :
    (o.expand ops).2.length = (machine (o.expand ops).1).arity := by
  cases o with
  | machine c => exact h
  | ret => rfl
  | jmp =>
    obtain ⟨op, rfl⟩ := List.length_eq_one_iff.1 h
    cases op <;> rfl

/-- The instruction of an opcode and its operands.  Slots without an operand are zero. -/
def Instruction.ofOperands (c : Condition) (o : Opcode) (ops : List Operand) : Instruction :=
  ⟨c, o, (ops[0]?.map Operand.field).getD .zero, (ops[1]?.map Operand.field).getD .zero⟩

namespace Instruction

theorem operandFields_ofOperands {c : Condition} {o : Opcode} {ops : List Operand}
    (h : ops.length = (Operation.machine o).arity) :
    (ofOperands c o ops).operandFields = ops.map Operand.field := by
  have hle := (Operation.machine o).arity_le_two
  unfold operandFields ofOperands
  dsimp only
  rw [← h] at hle ⊢
  match ops, hle with
  | [], _ => rfl
  | [op], _ => rfl
  | [op₁, op₂], _ => rfl

theorem hasExtra_ofOperands {c : Condition} {o : Opcode} {ops : List Operand}
    (h : ops.length = (Operation.machine o).arity) :
    (ofOperands c o ops).hasExtra ↔ ops.filterMap Operand.extra? ≠ [] := by
  unfold hasExtra
  rw [operandFields_ofOperands h, List.any_map, List.any_eq_true, Ne, List.filterMap_eq_nil_iff]
  simp [Operand.mode_field_eq_register_iff]

end Instruction

namespace Mnemonic

/-- The machine instruction that a mnemonic with operands stands for.  Slots without an operand are
zero. -/
inductive StandsFor : Mnemonic → List Operand → Instruction → Prop
  | nullary (c : Condition) (o : Opcode) :
    StandsFor ⟨c, .machine o⟩ [] ⟨c, o, ⟨.immediate, .r0⟩, ⟨.immediate, .r0⟩⟩
  | unary (c : Condition) (o : Opcode) {op : Operand} {f : Field} (h : op.HasField f) :
    StandsFor ⟨c, .machine o⟩ [op] ⟨c, o, f, ⟨.immediate, .r0⟩⟩
  | binary (c : Condition) (o : Opcode) {op₁ op₂ : Operand} {f₁ f₂ : Field}
    (h₁ : op₁.HasField f₁) (h₂ : op₂.HasField f₂) :
    StandsFor ⟨c, .machine o⟩ [op₁, op₂] ⟨c, o, f₁, f₂⟩
  | ret (c : Condition) :
    StandsFor ⟨c, .ret⟩ [] ⟨c, .pop, ⟨.register, .pc⟩, ⟨.immediate, .r0⟩⟩
  | jumpBy (c : Condition) (n : String) :
    StandsFor ⟨c, .jmp⟩ [.relative n] ⟨c, .add, ⟨.register, .pc⟩, ⟨.immediate, .pc⟩⟩
  | jumpTo (c : Condition) {op : Operand} {f : Field} (hop : ∀ n, op ≠ .relative n)
    (h : op.HasField f) : StandsFor ⟨c, .jmp⟩ [op] ⟨c, .mov, ⟨.register, .pc⟩, f⟩

theorem standsFor_ofOperands {m : Mnemonic} {ops : List Operand}
    (h : ops.length = m.operation.arity) :
    m.StandsFor ops (.ofOperands m.condition (m.operation.expand ops).1
      (m.operation.expand ops).2) := by
  obtain ⟨c, o⟩ := m
  have hle := o.arity_le_two
  cases o with
  | machine o =>
    rw [← h] at hle
    match ops, hle with
    | [], _ => exact .nullary c o
    | [op], _ => exact .unary c o op.hasField_field
    | [op₁, op₂], _ => exact .binary c o op₁.hasField_field op₂.hasField_field
  | ret =>
    obtain rfl := List.length_eq_zero_iff.1 h
    exact .ret c
  | jmp =>
    obtain ⟨op, rfl⟩ := List.length_eq_one_iff.1 h
    cases op with
    | relative n => exact .jumpBy c n
    | _ => exact .jumpTo c (fun n => by simp) (Operand.hasField_field _)

/-- Encoded operands have the fields of the operands, so packing them gives their instruction and
the extra word behind it. -/
theorem pack_of_encode {m : Mnemonic} {symbols : SymbolTable} {loc : UInt16} {o : Opcode}
    {ops : List Operand} {es : List EncodedOperand}
    (h : List.Forall₂ (fun op e => op.encode symbols loc = .ok e) ops es) :
    (m.pack o es).bytes = (Instruction.ofOperands m.condition o ops).bytes ++
      ((es.filterMap EncodedOperand.extra).head?.map EncodedWord.bytes).getD [] := by
  have hmap : es.map EncodedOperand.field = ops.map Operand.field := by
    rw [← List.forall₂_eq_eq_eq, List.forall₂_map_left_iff, List.forall₂_map_right_iff]
    exact h.flip.imp fun _ _ he => Operand.field_of_encode he
  have hfield : ∀ i : Nat, es[i]?.map EncodedOperand.field = ops[i]?.map Operand.field := by
    intro i
    rw [← List.getElem?_map, ← List.getElem?_map, hmap]
  unfold pack Instruction.ofOperands
  dsimp only
  rw [hfield, hfield, List.head?_filterMap]
  cases es.findSome? EncodedOperand.extra with
  | none => exact (List.append_nil _).symm
  | some e => rfl

/-- What is encoded for a mnemonic with operands are the bytes of the instruction that they stand for
and the extra word that this one asks for. -/
theorem bytes_of_encodeOperands {m : Mnemonic} {symbols : SymbolTable} {loc : UInt16}
    {ops : List Operand} {e : EncodedInstruction} (hlen : ops.length = m.operation.arity)
    (h : m.encodeOperands symbols loc ops = .ok e) :
    ∃ i extra, m.StandsFor ops i ∧ e.bytes = i.bytes ++ extra ∧
      extra.length = if i.hasExtra then 2 else 0 := by
  cases hes : (m.operation.expand ops).2.mapM (Operand.encode symbols loc) with
  | error f =>
    unfold encodeOperands at h
    dsimp only at h
    rw [hes] at h
    cases h
  | ok es =>
    have hall := Results.mapM_eq_ok_iff.1 hes
    rw [encodeOperands_of_mapM hes] at h
    split_ifs at h
    cases h
    refine ⟨_, _, standsFor_ofOperands hlen, pack_of_encode hall, ?_⟩
    have hwords := Operand.extras_of_encode hall
    have hextra : (Instruction.ofOperands m.condition _ _).hasExtra ↔ _ :=
      Instruction.hasExtra_ofOperands (Operation.length_expand hlen)
    generalize (m.operation.expand ops).2.filterMap Operand.extra? = ws at hwords hextra
    generalize es.filterMap EncodedOperand.extra = ews at hwords
    cases hwords with
    | nil =>
      rw [if_neg fun hi => hextra.1 hi rfl]
      rfl
    | @cons w ew ws ews hw =>
      rw [if_pos (hextra.2 (List.cons_ne_nil w ws))]
      exact ExtraWord.length_of_encode hw

theorem sweep_encodeOperands {m : Mnemonic} {symbols : SymbolTable} {loc : UInt16}
    {ops : List Operand} {e : EncodedInstruction} (hlen : ops.length = m.operation.arity)
    (h : m.encodeOperands symbols loc ops = .ok e) :
    ∃ i, m.StandsFor ops i ∧ ∀ offset rest, Instruction.sweep offset (e.bytes ++ rest) =
      (Instruction.sweep (offset + e.bytes.length) rest).map ((offset, i) :: ·) := by
  obtain ⟨i, extra, hi, hbytes, hextra⟩ := bytes_of_encodeOperands hlen h
  refine ⟨i, hi, ?_⟩
  rw [hbytes]
  exact Instruction.sweep_append hextra

end Mnemonic

/-! ### A section of instructions -/

namespace Line

def isInstruction (line : Line) : Bool :=
  match line.statement with
  | some (.instruction _ _) => true
  | _ => false

theorem isInstruction_iff {line : Line} :
    line.isInstruction ↔ ∃ m args, line.statement = some (.instruction m args) := by
  unfold isInstruction
  split <;> simp_all

/-- Whether lines put nothing but instructions into `.text`, from a place on. -/
def InstructionsOnly (here : Option Place) (lines : List Line) : Prop :=
  Along (fun before line => (before.foldl next here).map Place.kind = some .text →
    ∀ s, line.statement = some s → s.occupies → ∃ m args, s = .instruction m args) lines

end Line

def Line.Holds (line : Line) (i : Instruction) : Prop :=
  ∃ m args ops, line.statement = some (.instruction m args) ∧ args.mapM Operand.parse = .ok ops ∧
    m.StandsFor ops i

/-- Bytes of `.text` from an address on, the listing entries of some lines and the instructions that
are read back: one for each line that holds one, at the address of the line's entry. -/
structure Disassembly (start : Nat) (bytes : List UInt8) (entries : List Entry) (lines : List Line)
    (decoded : List (Nat × Instruction)) : Prop where
  sweep : ∀ rest, Instruction.sweep start (bytes ++ rest) =
    (Instruction.sweep (start + bytes.length) rest).map (decoded ++ ·)
  offsets : decoded.map Prod.fst =
    (entries.filter fun e => e.kind = .text).map fun e => e.offset.toNat
  rows : (entries.filter fun e => e.kind = .text).map Entry.row =
    (lines.filter Line.isInstruction).map Line.row
  holds : List.Forall₂ (fun line d => line.Holds d.2) (lines.filter Line.isInstruction) decoded

namespace Disassembly

theorem nil (start : Nat) {entries : List Entry} (h : ∀ e ∈ entries, e.kind ≠ .text)
    {lines : List Line} (hl : ∀ line ∈ lines, line.isInstruction = false) :
    Disassembly start [] entries lines [] := by
  have hentries : (entries.filter fun e => e.kind = .text) = [] :=
    List.filter_eq_nil_iff.2 fun e he => by simpa using h e he
  have hlines : lines.filter Line.isInstruction = [] :=
    List.filter_eq_nil_iff.2 fun line hline => by simp [hl line hline]
  refine ⟨fun rest => ?_, ?_, ?_, ?_⟩
  · simp
  · rw [hentries]
    rfl
  · rw [hentries, hlines]
    rfl
  · rw [hlines]
    exact .nil

theorem append {start : Nat} {bs bs' : List UInt8} {entries entries' : List Entry}
    {lines lines' : List Line} {decoded decoded' : List (Nat × Instruction)}
    (h : Disassembly start bs entries lines decoded)
    (h' : Disassembly (start + bs.length) bs' entries' lines' decoded') :
    Disassembly start (bs ++ bs') (entries ++ entries') (lines ++ lines')
      (decoded ++ decoded') := by
  refine ⟨fun rest => ?_, ?_, ?_, ?_⟩
  · rw [List.append_assoc, h.sweep, h'.sweep, Option.map_map, List.length_append, Nat.add_assoc]
    simp [Function.comp_def]
  · rw [List.map_append, List.filter_append, List.map_append, h.offsets, h'.offsets]
  · rw [List.filter_append, List.map_append, List.filter_append, List.map_append, h.rows, h'.rows]
  · rw [List.filter_append]
    exact List.rel_append h.holds h'.holds

end Disassembly

theorem Line.Lays.disassembly {symbols : SymbolTable} {line : Line} {out out' : Output}
    {here there : Option Place} (h : line.Lays symbols out here out' there)
    (hin : ∀ p, here = some p → p.kind.hasContents →
      (out.code.get p.kind).length = p.location.toNat)
    (honly : here.map Place.kind = some .text → ∀ s, line.statement = some s → s.occupies →
      ∃ m args, s = .instruction m args) :
    ∃ bs entries decoded, out'.code.get .text = out.code.get .text ++ bs ∧
      out'.listing.toList = out.listing.toList ++ entries ∧
      Disassembly (out.code.get .text).length bs entries [line] decoded := by
  -- lines without an instruction add nothing to `.text`
  have hnone : ∀ entries : List Entry, (∀ e ∈ entries, e.kind ≠ .text) →
      (∀ m args, line.statement ≠ some (.instruction m args)) →
      Disassembly (out.code.get .text).length [] entries [line] [] := by
    intro entries hentries hline
    refine .nil _ hentries fun b hb => ?_
    rw [List.mem_singleton.1 hb, ← Bool.not_eq_true, isInstruction_iff]
    rintro ⟨m, args, hs⟩
    exact hline m args hs
  cases h with
  | pass _ hp =>
    refine ⟨[], [], [], (List.append_nil _).symm, (List.append_nil _).symm, ?_⟩
    refine hnone [] (fun e he => by cases he) fun m args hs => ?_
    have := (hp _ hs).1
    cases this
  | enter _ k hs =>
    refine ⟨[], [], [], (List.append_nil _).symm, (List.append_nil _).symm, ?_⟩
    refine hnone [] (fun e he => by cases he) fun m args hs' => ?_
    rw [hs] at hs'
    cases hs'
  | put p q s rs bs hs ho hf hq =>
    have hputs := Statement.puts_of_fragment hf
    have hcode := out.get_code_put line.row p rs bs .text
    have hlisting := out.listing_put line.row p rs bs
    by_cases hk : p.kind = .text
    · obtain ⟨m, args, rfl⟩ := honly (congrArg some hk) s hs ho
      have hc : p.kind.hasContents := by rw [hk]; rfl
      rw [if_pos ⟨hk, hc⟩] at hcode
      cases hputs with
      | instruction _ _ ops e _ hops hlen he =>
        obtain ⟨i, hi, hsweep⟩ := Mnemonic.sweep_encodeOperands hlen he
        have hstart : (out.code.get .text).length = p.location.toNat := hk ▸ hin p rfl hc
        have hline : line.isInstruction := isInstruction_iff.2 ⟨m, args, hs⟩
        refine ⟨e.bytes, _, [(p.location.toNat, i)], hcode, hlisting, ?_⟩
        rw [hstart]
        refine ⟨fun rest => hsweep _ rest, ?_, ?_, ?_⟩
        · simp [hk]
        · simp [hk, hline]
        · rw [List.filter_singleton, hline]
          exact .cons ⟨m, args, ops, hs, hops, hi⟩ .nil
      | nothing _ hn => cases hn
    · rw [if_neg fun h => hk h.1] at hcode
      refine ⟨[], _, [], hcode, hlisting, hnone _ (fun e he => ?_) fun m args hs' => ?_⟩
      · rw [List.mem_singleton.1 he]
        exact hk
      · obtain rfl := Option.some.inj (hs.symm.trans hs')
        cases hputs with
        | instruction _ _ _ _ htext => exact hk htext
        | nothing _ hn => cases hn

theorem Output.Emits.disassembly {l l' : Layout} {symbols : SymbolTable} {lines : List Line}
    {out out' : Output} {there : Option Place} (hin : l.InStep out)
    (hnd : (l'.extents.map Extent.kind).Nodup) (ht : l.Takes (lines.flatMap Line.located) l')
    (h : out.Emits symbols l.place lines out' there)
    (honly : Line.InstructionsOnly l.place lines) :
    ∃ bs entries decoded, out'.code.get .text = out.code.get .text ++ bs ∧
      out'.listing.toList = out.listing.toList ++ entries ∧
      Disassembly (out.code.get .text).length bs entries lines decoded := by
  revert honly
  refine Layout.InStep.emits_induction (motive := fun out here lines out' =>
    Line.InstructionsOnly here lines →
      ∃ bs entries decoded, out'.code.get .text = out.code.get .text ++ bs ∧
        out'.listing.toList = out.listing.toList ++ entries ∧
        Disassembly (out.code.get .text).length bs entries lines decoded) ?_ ?_ hin hnd ht h
  · intro out here _
    exact ⟨[], [], [], (List.append_nil _).symm, (List.append_nil _).symm,
      .nil _ (fun e he => by cases he) fun line hline => by cases hline⟩
  · intro m line lines out mid out' there hm hline hrest honly
    obtain ⟨bs, entries, decoded, hcode, hlisting, hd⟩ :=
      hline.disassembly (fun _ hp => hm.length_place hp) (along_cons.1 honly).1
    obtain ⟨bs', entries', decoded', hcode', hlisting', hd'⟩ :=
      hrest (hline.next_eq ▸ (along_cons.1 honly).2)
    refine ⟨bs ++ bs', entries ++ entries', decoded ++ decoded', ?_, ?_, ?_⟩
    · rw [hcode', hcode, List.append_assoc]
    · rw [hlisting', hlisting, List.append_assoc]
    · rw [hcode, List.length_append] at hd'
      exact hd.append hd'

/-- The instruction stream is read back.  In a source that is assembled and puts nothing but
instructions into `.text`, the bytes of `.text` are instructions one after another: read from the
start on, they end with the section, one stands at the address of each listing entry of `.text`, in
order, and it is the one that the entry's line asks for, with its condition, its opcode and the
fields of its operands. -/
theorem sweep_contents_of_assemble {source : String} {a : Assembly}
    (h : assemble source = .ok a)
    (hocc : Along (fun before line => (before.filterMap Line.opens?).getLast? = some .text →
      ∀ s, line.statement = some s → s.occupies → ∃ m args, s = .instruction m args)
      (Program.ofSource source).lines) :
    ∃ decoded, Instruction.sweep 0 (a.object.contents .text) = some decoded ∧
      decoded.map Prod.fst =
        (a.listing.filter fun e => e.kind = .text).map (fun e => e.offset.toNat) ∧
      (a.listing.filter fun e => e.kind = .text).map Entry.row =
        ((Program.ofSource source).lines.filter Line.isInstruction).map Line.row ∧
      List.Forall₂ (fun (line : Line) (d : Nat × Instruction) => ∃ m args ops,
          line.statement = some (.instruction m args) ∧ args.mapM Operand.parse = .ok ops ∧
          m.StandsFor ops d.2)
        ((Program.ofSource source).lines.filter Line.isInstruction) decoded := by
  obtain ⟨l, out, there, ht, hf, -, he, rfl⟩ := Program.assemble_eq_ok_iff.1 h
  have hw := Program.wellFormed_of_takes (Program.takes_steps_iff.2 ⟨ht, hf⟩)
  have honly : Line.InstructionsOnly none (Program.ofSource source).lines := by
    refine hocc.imp fun before line _ hline hk => hline ?_
    rw [Line.kind_foldl_next] at hk
    exact Option.or_none.symm.trans hk
  obtain ⟨bs, entries, decoded, hcode, hlisting, hd⟩ :=
    Output.Emits.disassembly (Layout.inStep_start .empty) hw.nodup ht he honly
  refine ⟨decoded, ?_, ?_, ?_, hd.holds⟩
  · show Instruction.sweep 0 (out.code.get .text) = _
    have hall := hd.sweep []
    rw [List.append_nil] at hall
    rw [hcode]
    refine hall.trans ?_
    rw [Instruction.sweep, Option.map_some, List.append_nil]
  · show _ = (out.listing.toList.filter _).map _
    rw [hlisting]
    exact hd.offsets
  · show (out.listing.toList.filter _).map _ = _
    rw [hlisting]
    exact hd.rows

theorem sweep_contents_of_assemble_jump_and_data :
    ∃ a decoded, assemble ".text\nx: eqjmp $x\nmov r1, 5\nret\n.data\ny: .word y" = .ok a ∧
      Instruction.sweep 0 (a.object.contents .text) = some decoded ∧ decoded.length = 3 := by
  obtain ⟨a, h⟩ := Results.exists_of_isSome
    (x := assemble ".text\nx: eqjmp $x\nmov r1, 5\nret\n.data\ny: .word y") (by decide +kernel)
  have hlines : (Program.ofSource
      ".text\nx: eqjmp $x\nmov r1, 5\nret\n.data\ny: .word y").lines =
        [⟨0, [], some (.enter .text)⟩, ⟨1, ["x"], some (.instruction ⟨.equal, .jmp⟩ ["$x"])⟩,
          ⟨2, [], some (.instruction ⟨.always, .machine .mov⟩ ["r1", "5"])⟩,
          ⟨3, [], some (.instruction ⟨.always, .ret⟩ [])⟩, ⟨4, [], some (.enter .data)⟩,
          ⟨5, ["y"], some (.data .word ["y"])⟩] := by
    decide +kernel
  obtain ⟨decoded, hsweep, -, -, hall⟩ := sweep_contents_of_assemble h (by
    rw [hlines]
    simp [along_cons, along_nil, Line.opens?, Statement.opens?, Statement.occupies])
  refine ⟨a, decoded, h, hsweep, ?_⟩
  rw [← hall.length_eq, hlines]
  rfl

end SS16
