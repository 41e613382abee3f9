import SS16.Object.SymbolTable
import SS16.Source.Operand

/-!
# SS16.Assembly.Encoding — bytes of one instruction

A reference to a symbol becomes a word and a relocation: a local symbol contributes its offset and
waits for its section, a global one contributes nothing and waits for its own entry.  `encode` turns
a mnemonic and its operands into bytes.  Faults are looked for in a fixed order: the number of
operands, their forms, their symbols, the extra word, the destination.
-/

namespace SS16

/-- What a reference to a symbol contributes, and the entry it waits for. -/
structure Target where
  value : UInt16
  entry : UInt16
  deriving DecidableEq

def SymbolTable.target (symbols : SymbolTable) (name : String) : Except Fault Target :=
  match symbols.get? name with
  | none => .error (.missingSymbol name)
  | some s =>
    if s.isGlobal then .ok ⟨0, s.number⟩
    else
      match s.home with
      | none => .error (.missingSymbol name)
      | some k => .ok ⟨s.offset, k.number⟩

/-- An extra word in bytes, with the relocation it waits for. -/
structure EncodedWord where
  bytes : List UInt8
  relocation : Option Relocation
  deriving DecidableEq

/-- What a reference holds before linking.  A relative one counts from the end of the instruction,
two bytes past the word itself. -/
def RelocationKind.addend (kind : RelocationKind) (value : UInt16) : UInt16 :=
  match kind with
  | .absolute => value
  | .relative => value - 2

namespace ExtraWord

def encode (symbols : SymbolTable) (location : UInt16) : ExtraWord → Except Fault EncodedWord
  | literal l => l.bytes.map fun bs => ⟨bs, none⟩
  | reference kind name => (symbols.target name).map fun t =>
    ⟨LittleEndian.word (kind.addend t.value), some ⟨location + 2, kind, t.entry⟩⟩

end ExtraWord

structure EncodedOperand where
  field : Field
  extra : Option EncodedWord
  deriving DecidableEq

def Operand.encode (symbols : SymbolTable) (location : UInt16) (op : Operand) :
    Except Fault EncodedOperand :=
  match op.extra? with
  | none => .ok ⟨op.field, none⟩
  | some w => (w.encode symbols location).map fun e => ⟨op.field, some e⟩

/-- The machine instruction that an operation stands for: `ret` is `pop pc`, `jmp $x` is
`add pc, $x` and any other `jmp x` is `mov pc, x`. -/
def Operation.expand (ops : List Operand) : Operation → Opcode × List Operand
  | .machine o => (o, ops)
  | .ret => (.pop, [.pointer .pc])
  | .jmp =>
    match ops with
    | [.relative n] => (.add, [.pointer .pc, .relative n])
    | [op] => (.mov, [.pointer .pc, op])
    | _ => (.pop, [.pointer .pc])

structure EncodedInstruction where
  bytes : List UInt8
  relocation : Option Relocation
  deriving DecidableEq

namespace Mnemonic

/-- Packs encoded operands.  Unused slots are zero, and at most one extra word follows. -/
def pack (m : Mnemonic) (opcode : Opcode) (operands : List EncodedOperand) : EncodedInstruction :=
  let slot (i : Nat) : Field := (operands[i]?.map EncodedOperand.field).getD .zero
  let word := Instruction.bytes ⟨m.condition, opcode, slot 0, slot 1⟩
  match operands.findSome? EncodedOperand.extra with
  | none => ⟨word, none⟩
  | some e => ⟨word ++ e.bytes, e.relocation⟩

def writesImmediate (m : Mnemonic) (operands : List Operand) : Bool :=
  m.operation.role.writesFirst && operands.head?.any Operand.isImmediate

/-- An instruction at a given address, from operands of the right number. -/
def encodeOperands (m : Mnemonic) (symbols : SymbolTable) (location : UInt16)
    (operands : List Operand) : Except Fault EncodedInstruction :=
  let expanded := m.operation.expand operands
  (expanded.2.mapM (Operand.encode symbols location)).bind fun encoded =>
    if 1 < encoded.countP (fun e => e.extra.isSome) then .error .twoExtraWords
    else if m.writesImmediate operands then .error (.immediateDestination m)
    else .ok (m.pack expanded.1 encoded)

def encode (m : Mnemonic) (symbols : SymbolTable) (location : UInt16) (args : List String) :
    Except Fault EncodedInstruction :=
  if args.length = m.operation.arity then
    (args.mapM Operand.parse).bind (m.encodeOperands symbols location)
  else .error (.arity m args.length)

end Mnemonic

end SS16
