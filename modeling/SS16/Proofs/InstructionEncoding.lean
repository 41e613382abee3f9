import SS16.Proofs.Disassembly
import SS16.Proofs.Emission.ExtraWords

/-!
# SS16.Proofs.InstructionEncoding — what one instruction comes to

`Mnemonic.Encodes` tells for each list of arguments the one fault that is found in it, or else the
word, the extra word and the relocation that it comes to.  It speaks of the operands as written, not
of those that a shorthand expands to.  Main statements: `Mnemonic.Encodes.encode_eq`,
`Mnemonic.encodes_encode`, `Mnemonic.fault_of_encode` (the faults that remain once every name has a
target) and `Mnemonic.encode_iff_encodes`.
-/

namespace SS16

/-! ### Operations -/

namespace Operation

/-- The operations that write their first operand. -/
def writing : List Operation :=
  [machine .add, machine .sub, machine .mul, machine .div, machine .and, machine .or, machine .not,
    machine .mov, machine .shl, machine .shr, machine .pop]

/-- Whether an operation takes so many operands. -/
inductive Takes : Operation → Nat → Prop
  | none {o : Operation} (h : o ∈ [machine .iret, ret]) : Takes o 0
  | one {o : Operation} (h : o ∈ [machine .push, machine .pop, machine .call, jmp]) : Takes o 1
  | two {o : Operation} (h : o ∈ [machine .add, machine .sub, machine .mul, machine .div,
      machine .cmp, machine .and, machine .or, machine .not, machine .test, machine .mov,
      machine .shl, machine .shr]) : Takes o 2

theorem mem_writing_iff {o : Operation} : o ∈ writing ↔ o.role.writesFirst := by
  cases o with
  | machine c => cases c <;> decide
  | ret => decide
  | jmp => decide

theorem takes_arity (o : Operation) : o.Takes o.arity := by
  cases o with
  | machine c =>
    cases c with
    | iret => exact .none (by decide)
    | push | pop | call => exact .one (by decide)
    | _ => exact .two (by decide)
  | ret => exact .none (by decide)
  | jmp => exact .one (by decide)

theorem takes_iff {o : Operation} {n : Nat} : o.Takes n ↔ o.arity = n := by
  constructor
  · have hnone : ∀ o ∈ [machine .iret, ret], o.arity = 0 := by decide
    have hone : ∀ o ∈ [machine .push, machine .pop, machine .call, jmp], o.arity = 1 := by decide
    have htwo : ∀ o ∈ [machine .add, machine .sub, machine .mul, machine .div, machine .cmp,
        machine .and, machine .or, machine .not, machine .test, machine .mov, machine .shl,
        machine .shr], o.arity = 2 := by decide
    rintro (h | h | h)
    · exact hnone o h
    · exact hone o h
    · exact htwo o h
  · rintro rfl
    exact o.takes_arity

/-- A shorthand puts the program counter in front of its operands. -/
theorem snd_expand {o : Operation} {ops : List Operand} (h : ops.length = o.arity) :
    (o.expand ops).2 = ops ∨ (o.expand ops).2 = .pointer .pc :: ops := by
  cases o with
  | machine c => exact .inl rfl
  | ret =>
    obtain rfl := List.length_eq_zero_iff.1 h
    exact .inr rfl
  | jmp =>
    obtain ⟨op, rfl⟩ := List.length_eq_one_iff.1 h
    cases op <;> exact .inr rfl

end Operation

namespace Mnemonic

variable {m : Mnemonic} {symbols : SymbolTable} {loc : UInt16}

theorem mapM_encode_expand {ops : List Operand} (h : ops.length = m.operation.arity) :
    ∃ es, ((m.operation.expand ops).2.mapM (Operand.encode symbols loc)) =
      (ops.mapM (Operand.encode symbols loc)).map (es ++ ·) := by
  rcases Operation.snd_expand h with he | he
  · refine ⟨[], ?_⟩
    rw [he]
    cases ops.mapM (Operand.encode symbols loc) <;> rfl
  · refine ⟨[⟨.direct .pc, none⟩], ?_⟩
    have hpc : Operand.encode symbols loc (.pointer .pc) = .ok ⟨.direct .pc, none⟩ := rfl
    rw [he, List.mapM_cons, hpc]
    cases ops.mapM (Operand.encode symbols loc) <;> rfl

theorem StandsFor.eq_ofOperands {ops : List Operand} {i : Instruction} (h : m.StandsFor ops i) :
    i = .ofOperands m.condition (m.operation.expand ops).1 (m.operation.expand ops).2 := by
  cases h with
  | nullary | ret | jumpBy => rfl
  | unary c o h =>
    obtain rfl := Operand.hasField_iff.1 h
    rfl
  | binary c o h₁ h₂ =>
    obtain rfl := Operand.hasField_iff.1 h₁
    obtain rfl := Operand.hasField_iff.1 h₂
    rfl
  | @jumpTo c op f hop h =>
    obtain rfl := Operand.hasField_iff.1 h
    cases op with
    | relative n => exact absurd rfl (hop n)
    | _ => rfl

theorem relocation_pack (m : Mnemonic) (o : Opcode) (es : List EncodedOperand) :
    (m.pack o es).relocation = (es.filterMap EncodedOperand.extra).head?.bind
      EncodedWord.relocation := by
  unfold pack
  dsimp only
  rw [List.head?_filterMap]
  cases es.findSome? EncodedOperand.extra <;> rfl

/-- Operands that are in order: as many as the operation takes, all of them read, and none with a
lacking name. -/
structure Operands (m : Mnemonic) (symbols : SymbolTable) (args : List String)
    (ops : List Operand) : Prop where
  length : m.operation.Takes args.length
  parse : List.Forall₂ (fun arg op => Operand.parse arg = .ok op) args ops
  resolved : ∀ op ∈ ops, op.Resolved symbols

/-- What an instruction at an address comes to. -/
inductive Encodes (m : Mnemonic) (symbols : SymbolTable) (loc : UInt16) (args : List String) :
    Except Fault EncodedInstruction → Prop
  | arity (hlen : ¬ m.operation.Takes args.length) :
    Encodes m symbols loc args (.error (.arity m args.length))
  /-- An argument is refused, and none before it. -/
  | operand {before after : List String} {arg : String} {f : Fault}
    (hlen : m.operation.Takes args.length) (hargs : args = before ++ arg :: after)
    (hbefore : ∀ a ∈ before, ∃ op, Operand.parse a = .ok op) (h : Operand.parse arg = .error f)
    (hf : f = .literalOverflow arg 2 ∨ f = .unrecognizedOperand arg) :
    Encodes m symbols loc args (.error f)
  /-- An operand speaks of a lacking name, and none before it. -/
  | symbol {before after : List Operand} {op : Operand} {n : String}
    (hlen : m.operation.Takes args.length)
    (hops : List.Forall₂ (fun arg op => Operand.parse arg = .ok op) args (before ++ op :: after))
    (hbefore : ∀ o ∈ before, o.Resolved symbols) (hn : n ∈ op.named)
    (h : symbols.Lacks n) : Encodes m symbols loc args (.error (.missingSymbol n))
  | twoExtraWords {ops : List Operand} (hops : m.Operands symbols args ops)
    (h : Operand.TwoWide ops) : Encodes m symbols loc args (.error .twoExtraWords)
  /-- The operand that is written to is a value. -/
  | destination {op : Operand} {rest : List Operand} (hops : m.Operands symbols args (op :: rest))
    (hone : ¬ Operand.TwoWide (op :: rest)) (hw : m.operation ∈ Operation.writing)
    (hop : op.IsValue) : Encodes m symbols loc args (.error (.immediateDestination m))
  /-- The word, and the extra word if there is one. -/
  | encoded {ops : List Operand} {i : Instruction} {extra : List UInt8} {r : Option Relocation}
    (hops : m.Operands symbols args ops) (hone : ¬ Operand.TwoWide ops)
    (hdest : m.operation ∈ Operation.writing → ∀ op, ops.head? = some op → ¬ op.IsValue)
    (hi : m.StandsFor ops i) (hextra : Operand.Trails symbols loc ops extra r) :
    Encodes m symbols loc args (.ok ⟨Instruction.bigEndian i.packed ++ extra, r⟩)

namespace Operands

variable {args : List String} {ops : List Operand}

theorem length_eq (h : m.Operands symbols args ops) : ops.length = m.operation.arity :=
  h.parse.length_eq.symm.trans (Operation.takes_iff.1 h.length).symm

theorem encode_eq (h : m.Operands symbols args ops) :
    m.encode symbols loc args = m.encodeOperands symbols loc ops := by
  unfold encode
  rw [if_pos (Operation.takes_iff.1 h.length).symm, Results.mapM_eq_ok_iff.2 h.parse]
  rfl

/-- The checks that are left once the operands are in order. -/
theorem exists_encode_eq (h : m.Operands symbols args ops) (loc : UInt16) :
    ∃ es, (m.operation.expand ops).2.mapM (Operand.encode symbols loc) = .ok es ∧
      List.Forall₂ (fun w ew => w.encode symbols loc = .ok ew) (ops.filterMap Operand.extra?)
        (es.filterMap EncodedOperand.extra) ∧
      m.encode symbols loc args =
        if 1 < (ops.filterMap Operand.extra?).length then .error .twoExtraWords
        else if m.writesImmediate ops then .error (.immediateDestination m)
        else .ok (m.pack (m.operation.expand ops).1 es) := by
  obtain ⟨es, hes⟩ := (Operand.exists_mapM_encode_iff h.parse symbols loc).2 h.resolved
  obtain ⟨front, hexpand⟩ := mapM_encode_expand (m := m) h.length_eq
  rw [hes] at hexpand
  have hwords := Operand.extras_of_encode (Results.mapM_eq_ok_iff.1 hexpand)
  rw [Operation.filterMap_extra?_expand h.length_eq] at hwords
  refine ⟨_, hexpand, hwords, ?_⟩
  rw [h.encode_eq, encodeOperands_of_mapM hexpand, hwords.length_eq]

theorem twoWide_iff (h : m.Operands symbols args ops) :
    Operand.TwoWide ops ↔ 1 < (ops.filterMap Operand.extra?).length :=
  Operand.twoWide_iff (h.length_eq ▸ m.operation.arity_le_two)

end Operands

theorem writesImmediate_iff {ops : List Operand} :
    m.writesImmediate ops ↔
      m.operation ∈ Operation.writing ∧ ∃ op, ops.head? = some op ∧ op.IsValue := by
  unfold writesImmediate
  rw [Bool.and_eq_true, Operation.mem_writing_iff, Option.any_eq_true]
  simp only [Operand.isValue_iff]

theorem Operands.extra_eq {args : List String} {ops : List Operand} {ews : List EncodedWord}
    {extra : List UInt8} {r : Option Relocation} (h : m.Operands symbols args ops)
    (hone : ¬ Operand.TwoWide ops)
    (hwords : List.Forall₂ (fun w ew => w.encode symbols loc = .ok ew)
      (ops.filterMap Operand.extra?) ews)
    (hextra : Operand.Trails symbols loc ops extra r) :
    (ews.head?.map EncodedWord.bytes).getD [] = extra ∧
      ews.head?.bind EncodedWord.relocation = r := by
  have hlen := h.twoWide_iff.not.1 hone
  cases hextra with
  | nothing hplain =>
    have hnil : ops.filterMap Operand.extra? = [] :=
      List.filterMap_eq_nil_iff.2 fun op hop => Operand.isPlain_iff.1 (hplain op hop)
    rw [hnil] at hwords
    cases hwords
    exact ⟨rfl, rfl⟩
  | word hop hw hv =>
    -- the only extra word there is
    rw [Operand.wants_iff] at hw
    obtain ⟨arg, harg⟩ := Operand.exists_parse_of_mem h.parse hop
    have hencode := hv.encode_eq (Operand.wellFormed_of_parse harg hw)
    have hmem := List.mem_filterMap.2 ⟨_, hop, hw⟩
    generalize ops.filterMap Operand.extra? = ws at hlen hmem hwords
    match ws, hlen with
    | [], _ => cases hmem
    | [w], _ =>
      obtain rfl := List.mem_singleton.1 hmem
      obtain ⟨ew, ews, hew, hrest, rfl⟩ := List.forall₂_cons_left_iff.1 hwords
      obtain rfl := List.forall₂_nil_left_iff.1 hrest
      rw [hencode] at hew
      cases hew
      exact ⟨rfl, rfl⟩
    | _ :: _ :: _, hlen => simp at hlen

theorem Operands.pack_eq {args : List String} {ops : List Operand} {es : List EncodedOperand}
    {extra : List UInt8} {r : Option Relocation} (h : m.Operands symbols args ops)
    (hone : ¬ Operand.TwoWide ops)
    (hes : (m.operation.expand ops).2.mapM (Operand.encode symbols loc) = .ok es)
    (hwords : List.Forall₂ (fun w ew => w.encode symbols loc = .ok ew)
      (ops.filterMap Operand.extra?) (es.filterMap EncodedOperand.extra))
    {i : Instruction} (hi : m.StandsFor ops i) (hextra : Operand.Trails symbols loc ops extra r) :
    m.pack (m.operation.expand ops).1 es = ⟨Instruction.bigEndian i.packed ++ extra, r⟩ := by
  have hbytes := pack_of_encode (m := m) (o := (m.operation.expand ops).1)
    (Results.mapM_eq_ok_iff.1 hes)
  have hreloc := m.relocation_pack (m.operation.expand ops).1 es
  obtain ⟨hextraBytes, hextraReloc⟩ := h.extra_eq hone hwords hextra
  rw [← hi.eq_ofOperands, Instruction.bytes_eq, hextraBytes] at hbytes
  rw [hextraReloc] at hreloc
  rw [← hbytes, ← hreloc]

variable {args : List String}

theorem Encodes.encode_eq {x : Except Fault EncodedInstruction}
    (h : m.Encodes symbols loc args x) : m.encode symbols loc args = x := by
  cases h with
  | arity hlen =>
    unfold encode
    rw [if_neg fun h => hlen (Operation.takes_iff.2 h.symm)]
  | operand hlen hargs hbefore h _ =>
    unfold encode
    rw [if_pos (Operation.takes_iff.1 hlen).symm,
      Results.mapM_eq_error_iff.2 ⟨_, _, _, hargs, hbefore, h⟩]
    rfl
  | symbol hlen hops hbefore hn h =>
    have herror := (Operand.mapM_encode_eq_error_iff hops symbols loc).2
      ⟨_, _, _, _, rfl, hbefore, hn, h, rfl⟩
    have harity := (Operation.takes_iff.1 hlen).symm
    obtain ⟨front, hexpand⟩ := mapM_encode_expand (hops.length_eq.symm.trans harity)
    rw [herror] at hexpand
    unfold encode encodeOperands
    rw [if_pos harity, Results.mapM_eq_ok_iff.2 hops]
    show Except.bind (List.mapM _ _) _ = _
    rw [hexpand]
    rfl
  | twoExtraWords hops htwo =>
    obtain ⟨es, -, -, he⟩ := hops.exists_encode_eq loc
    rw [he, if_pos (hops.twoWide_iff.1 htwo)]
  | destination hops hone hw hop =>
    obtain ⟨es, -, -, he⟩ := hops.exists_encode_eq loc
    rw [he, if_neg (hops.twoWide_iff.not.1 hone),
      if_pos (writesImmediate_iff.2 ⟨hw, _, rfl, hop⟩)]
  | encoded hops hone hdest hi hextra =>
    obtain ⟨es, hes, hwords, he⟩ := hops.exists_encode_eq loc
    have hvalue : ¬ m.writesImmediate _ := fun h => by
      obtain ⟨hw, op, hop, hv⟩ := writesImmediate_iff.1 h
      exact hdest hw op hop hv
    rw [he, if_neg (hops.twoWide_iff.not.1 hone), if_neg hvalue,
      hops.pack_eq hone hes hwords hi hextra]

theorem Operands.exists_trails {ops : List Operand} (h : m.Operands symbols args ops)
    (loc : UInt16) : ∃ extra r, Operand.Trails symbols loc ops extra r := by
  by_cases hplain : ∀ op ∈ ops, op.IsPlain
  · exact ⟨_, _, .nothing hplain⟩
  · push Not at hplain
    obtain ⟨op, hop, hwide⟩ := hplain
    obtain ⟨w, hw⟩ := Option.ne_none_iff_exists'.1 (mt Operand.isPlain_iff.2 hwide)
    obtain ⟨arg, harg⟩ := Operand.exists_parse_of_mem h.parse hop
    have hname : ∀ kind n, w = .reference kind n → ¬ symbols.Lacks n := fun kind n hn =>
      h.resolved op hop n (Operand.mem_named_iff.2 (by rw [Operand.symbol?, hw, hn]))
    obtain ⟨v, r, hv⟩ := ExtraWord.exists_holds
      (fun l hl => Operand.exists_holds_of_parse harg (hl ▸ hw)) hname loc
    exact ⟨_, _, .word hop (Operand.wants_iff.2 hw) hv⟩

theorem Operands.exists_encodes {ops : List Operand} (h : m.Operands symbols args ops)
    (loc : UInt16) : ∃ x, m.Encodes symbols loc args x := by
  by_cases hone : Operand.TwoWide ops
  · exact ⟨_, .twoExtraWords h hone⟩
  by_cases hdest : m.operation ∈ Operation.writing ∧ ∃ op, ops.head? = some op ∧ op.IsValue
  · obtain ⟨hw, op, hop, hv⟩ := hdest
    obtain ⟨rest, rfl⟩ := List.head?_eq_some_iff.1 hop
    exact ⟨_, .destination h hone hw hv⟩
  · obtain ⟨extra, r, hextra⟩ := h.exists_trails loc
    refine ⟨_, .encoded h hone (fun hw op hop hv => ?_) (standsFor_ofOperands h.length_eq) hextra⟩
    exact hdest ⟨hw, op, hop, hv⟩

theorem exists_encodes (m : Mnemonic) (symbols : SymbolTable) (loc : UInt16) (args : List String) :
    ∃ x, m.Encodes symbols loc args x := by
  by_cases hlen : m.operation.Takes args.length
  swap
  · exact ⟨_, .arity hlen⟩
  cases hparse : args.mapM Operand.parse with
  | error f =>
    obtain ⟨before, arg, after, hargs, hbefore, hf⟩ := Results.mapM_eq_error_iff.1 hparse
    refine ⟨_, .operand hlen hargs hbefore hf ?_⟩
    exact (Operand.fault_of_parse hf).imp_left And.left
  | ok ops =>
    have hops := Results.mapM_eq_ok_iff.1 hparse
    cases hes : ops.mapM (Operand.encode symbols loc) with
    | error f =>
      obtain ⟨before, op, after, n, rfl, hbefore, hn, hlacks, -⟩ :=
        (Operand.mapM_encode_eq_error_iff hops symbols loc).1 hes
      exact ⟨_, .symbol hlen hops hbefore hn hlacks⟩
    | ok es =>
      have hresolved := (Operand.exists_mapM_encode_iff hops symbols loc).1 ⟨es, hes⟩
      exact Operands.exists_encodes ⟨hlen, hops, hresolved⟩ loc

theorem encodes_encode (m : Mnemonic) (symbols : SymbolTable) (loc : UInt16) (args : List String) :
    m.Encodes symbols loc args (m.encode symbols loc args) := by
  obtain ⟨x, hx⟩ := m.exists_encodes symbols loc args
  rwa [hx.encode_eq]

/-- Once its operands are read and their names have targets, an instruction can only have the wrong
number of operands, two extra words or an immediate destination. -/
theorem fault_of_encode {ops : List Operand} (hops : args.mapM Operand.parse = .ok ops)
    (ht : ∀ op ∈ ops, ∀ n ∈ op.named, ∃ t, symbols.target n = .ok t) {f : Fault}
    (h : m.encode symbols loc args = .error f) :
    args.length ≠ m.operation.arity ∧ f = .arity m args.length ∨ f = .twoExtraWords ∨
      f = .immediateDestination m := by
  have hencodes := m.encodes_encode symbols loc args
  rw [h] at hencodes
  cases hencodes with
  | arity hlen => exact .inl ⟨fun h => hlen (Operation.takes_iff.2 h.symm), rfl⟩
  | operand _ hargs hbefore hf _ =>
    cases hops.symm.trans (Results.mapM_eq_error_iff.2 ⟨_, _, _, hargs, hbefore, hf⟩)
  | @symbol before after op n _ hall _ hn hlacks =>
    obtain rfl : ops = before ++ op :: after :=
      Except.ok.inj (hops.symm.trans (Results.mapM_eq_ok_iff.2 hall))
    obtain ⟨t, ht⟩ := ht op (List.mem_append_right before List.mem_cons_self) n hn
    cases ht.symm.trans (SymbolTable.target_eq_error_iff.2 ⟨hlacks, rfl⟩)
  | twoExtraWords _ _ => exact .inr (.inl rfl)
  | destination _ _ _ _ => exact .inr (.inr rfl)

/-! ### Relocations -/

/-- The output after an instruction at an address of `.text` has left its relocations there. -/
def relocate (m : Mnemonic) (symbols : SymbolTable) (loc : UInt16) (args : List String)
    (out : Output) : Output :=
  out.relocateAt (some ⟨.text, loc⟩)
    (Statement.fragment symbols ⟨.text, loc⟩ (.instruction m args)).relocations

theorem relocate_of_error {f : Fault} (h : m.encode symbols loc args = .error f) (out : Output) :
    m.relocate symbols loc args out = out := by
  unfold relocate Statement.fragment
  dsimp only
  rw [if_pos rfl, h]
  rfl

theorem relocate_of_ok {e : EncodedInstruction} (h : m.encode symbols loc args = .ok e)
    (out : Output) :
    m.relocate symbols loc args out = out.relocate .text e.relocation.toList := by
  unfold relocate Statement.fragment
  dsimp only
  rw [if_pos rfl, h]
  rfl

/-- What encoding an instruction gives is what is told of it.  The number of arguments is looked at
first, then their forms one by one, then their names one by one, then the extra words, then the
destination.  The output gains no relocation if there is a fault or no operand speaks of a symbol, and
else one, in `.text` and two bytes past the instruction's address. -/
theorem encode_iff_encodes (m : Mnemonic) (symbols : SymbolTable) (loc : UInt16)
    (args : List String) :
    (∀ x, m.encode symbols loc args = x ↔ m.Encodes symbols loc args x) ∧
    ∀ out : Output,
      (∀ f, m.encode symbols loc args = .error f → m.relocate symbols loc args out = out) ∧
      ∀ e ops, m.encode symbols loc args = .ok e →
        List.Forall₂ (fun arg op => Operand.parse arg = .ok op) args ops →
        ((∀ op ∈ ops, op.named = []) → m.relocate symbols loc args out = out) ∧
        ((∃ op ∈ ops, op.named ≠ []) →
          ∃ r, e.relocation = some r ∧ r.offset = loc + 2 ∧
            (m.relocate symbols loc args out).relocations.get .text =
              out.relocations.get .text ++ [r] ∧
            (∀ k, k ≠ .text → (m.relocate symbols loc args out).relocations.get k =
              out.relocations.get k) ∧
            (m.relocate symbols loc args out).code = out.code ∧
            (m.relocate symbols loc args out).listing = out.listing) := by
  have hiff : ∀ x, m.encode symbols loc args = x ↔ m.Encodes symbols loc args x := fun x =>
    ⟨fun h => h ▸ m.encodes_encode symbols loc args, Encodes.encode_eq⟩
  refine ⟨hiff, fun out => ⟨fun f hf => relocate_of_error hf out, fun e ops he hparse => ?_⟩⟩
  rw [relocate_of_ok he]
  cases (hiff _).1 he with
  | @encoded ops' i extra r hops hone hdest hi hextra =>
    obtain rfl : ops = ops' := Except.ok.inj
      ((Results.mapM_eq_ok_iff.2 hparse).symm.trans (Results.mapM_eq_ok_iff.2 hops.parse))
    constructor
    · intro hn
      obtain rfl := hextra.relocation_eq_none hn
      rfl
    · rintro ⟨op, hop, hne⟩
      obtain ⟨n, hn⟩ := List.exists_mem_of_ne_nil _ hne
      have hlen : ops.length ≤ 2 := hops.length_eq ▸ m.operation.arity_le_two
      obtain ⟨kind, entry, rfl⟩ := hextra.exists_relocation hlen hone hop hn
      have hget := out.relocations.get_append .text
      refine ⟨_, rfl, rfl, (hget .text _).trans (if_pos rfl), fun k hk => ?_, rfl, rfl⟩
      exact (hget k _).trans (if_neg (Ne.symm hk))

theorem encode_iff_encodes_jump_and_indexed :
    Encodes ⟨.notEqual, .jmp⟩ (SymbolTable.empty.insert (.defined "x" .data 0x1234 5)) 6 ["$x"]
        (.ok ⟨[0x41, 0xE7, 0x32, 0x12], some ⟨8, .relative, 2⟩⟩) ∧
      Encodes ⟨.greater, .machine .mov⟩ .empty 6 ["r3[7]", "r4"]
        (.ok ⟨[0xB7, 0x6C, 7, 0], none⟩) ∧
      Encodes ⟨.always, .machine .pop⟩ .empty 6 ["&x"] (.error (.missingSymbol "x")) :=
  ⟨((encode_iff_encodes _ _ _ _).1 _).1 (by decide +kernel),
    ((encode_iff_encodes _ _ _ _).1 _).1 (by decide +kernel),
    ((encode_iff_encodes _ _ _ _).1 _).1 (by decide +kernel)⟩

end Mnemonic

end SS16
