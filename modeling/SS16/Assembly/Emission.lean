import SS16.Assembly.Encoding
import SS16.Assembly.Output
import SS16.Assembly.Place
import SS16.Source.Program

/-!
# SS16.Assembly.Emission — bytes, relocations and listing

The second sweep over a program, with the symbols of the first.  A statement makes a fragment: its
relocations, and its bytes or the fault that spoils them.  Fragments of one line join like lists up
to the first fault.  Nothing that was laid down before is looked at again.  Main statements:
`Fragment.append_assoc` and `Output.emit_append` (a sweep can be split between any two lines).
-/

namespace SS16

/-- What a part of a line contributes.  Its relocations stand even if its bytes fail. -/
structure Fragment where
  relocations : List Relocation
  bytes : Except Fault (List UInt8)

namespace Fragment

def empty : Fragment := ⟨[], .ok []⟩

def ofBytes (bs : List UInt8) : Fragment := ⟨[], .ok bs⟩

def fault (f : Fault) : Fragment := ⟨[], .error f⟩

/-- One part and then another, which does not count if the first one fails. -/
def append (a b : Fragment) : Fragment :=
  match a.bytes with
  | .ok xs => ⟨a.relocations ++ b.relocations, b.bytes.map (xs ++ ·)⟩
  | .error _ => a

def join (parts : List Fragment) : Fragment := parts.foldr append empty

/-- An instruction, or the fault in it. -/
def ofInstruction : Except Fault EncodedInstruction → Fragment
  | .ok e => ⟨e.relocation.toList, .ok e.bytes⟩
  | .error f => fault f

theorem append_assoc (a b c : Fragment) : (a.append b).append c = a.append (b.append c) := by
  obtain ⟨rs, x⟩ := a
  obtain ⟨ss, y⟩ := b
  cases x with
  | error f => rfl
  | ok xs =>
    cases y with
    | error f => rfl
    | ok ys =>
      obtain ⟨ts, z⟩ := c
      cases z with
      | error f => simp [append, Except.map]
      | ok zs => simp [append, Except.map]

@[simp] theorem empty_append (a : Fragment) : empty.append a = a := by
  obtain ⟨rs, x⟩ := a
  cases x <;> simp [append, empty, Except.map]

@[simp] theorem append_empty (a : Fragment) : a.append empty = a := by
  obtain ⟨rs, x⟩ := a
  cases x <;> simp [append, empty, Except.map]

theorem join_append (xs ys : List Fragment) : join (xs ++ ys) = (join xs).append (join ys) := by
  induction xs with
  | nil => exact (empty_append _).symm
  | cons x xs ih =>
    change x.append (join (xs ++ ys)) = (x.append (join xs)).append (join ys)
    rw [ih, append_assoc]

end Fragment

namespace Width

def element (w : Width) (arg : String) (v : Int) : Except Fault (List UInt8) :=
  (LittleEndian.encode? w.size v).elim (.error (.literalOverflow arg w.size)) .ok

/-- A number, or a reference to a symbol, as an element at a given address. -/
def fragment (w : Width) (symbols : SymbolTable) (location : UInt16) (arg : String) : Fragment :=
  match Numeral.integer? arg with
  | some v => ⟨[], w.element arg v⟩
  | none =>
    match symbols.target arg with
    | .error f => .fault f
    | .ok t => ⟨[⟨location, .absolute, t.entry⟩], w.element arg t.value.toNat⟩

def fragments (w : Width) (symbols : SymbolTable) (location : UInt16) (args : List String) :
    Fragment :=
  Fragment.join (args.zipIdx.map fun a =>
    w.fragment symbols (location + UInt16.ofNat (a.2 * w.size)) a.1)

end Width

namespace Statement

/-- Whether a statement takes part in the contents of a section. -/
def occupies : Statement → Bool
  | data _ _ | skip _ | align _ | instruction _ _ => true
  | stop | enter _ | global _ => false

def fragment (symbols : SymbolTable) (p : Place) : Statement → Fragment
  | data w args =>
    if !args.isEmpty && !p.kind.hasContents then .fault .dataInBss
    else w.fragments symbols p.location args
  | skip n => .ofBytes (List.replicate n.toNat 0)
  | align n =>
    match alignUp p.location n with
    | some a => .ofBytes (List.replicate (a.toNat - p.location.toNat) 0)
    | none => .fault p.overflow
  | instruction m args =>
    if p.kind = .text then .ofInstruction (m.encode symbols p.location args)
    else .fault (.instructionIn p.kind)
  | stop | enter _ | global _ => .empty

end Statement

/-- What a line does to the output, and the place after it or the fault in it. -/
structure Effect where
  relocations : List Relocation
  outcome : Except Fault (Option Place × Option Entry)

namespace Effect

def pass (place : Option Place) : Effect := ⟨[], .ok (place, none)⟩

def lay (row : Nat) (p : Place) (part : Fragment) : Effect where
  relocations := part.relocations
  outcome :=
    match part.bytes with
    | .error f => .error f
    | .ok bs =>
      match p.advance? bs.length with
      | none => .error p.overflow
      | some q =>
        .ok (some q, some ⟨row, p.kind, p.location, if p.kind.hasContents then bs else []⟩)

end Effect

def Line.effect (symbols : SymbolTable) (here : Option Place) (line : Line) : Effect :=
  match line.statement with
  | none => .pass here
  | some (.enter k) => .pass (some (.start k))
  | some s =>
    if s.occupies then
      match here with
      | none => ⟨[], .error (.outsideSection s.heading)⟩
      | some p => .lay line.row p (s.fragment symbols p)
    else .pass here

namespace Output

/-- Adds the relocations of a line to the section that is open before it. -/
def relocateAt (out : Output) (here : Option Place) (rs : List Relocation) : Output :=
  match here with
  | none => out
  | some p => out.relocate p.kind rs

def enterSome (out : Output) : Option Entry → Output
  | none => out
  | some e => out.enter e

/-- Lays down lines from a place on, up to the first fault. -/
def emit (symbols : SymbolTable) (out : Output) (here : Option Place) :
    List Line → Output × Except Located (Option Place)
  | [] => (out, .ok here)
  | line :: lines =>
    let e := line.effect symbols here
    let out := out.relocateAt here e.relocations
    match e.outcome with
    | .error f => (out, .error (f.inRow line.row))
    | .ok (there, entry) => emit symbols (out.enterSome entry) there lines

theorem emit_append (symbols : SymbolTable) (out : Output) (here : Option Place)
    (xs ys : List Line) :
    out.emit symbols here (xs ++ ys) =
      match out.emit symbols here xs with
      | (mid, .ok there) => mid.emit symbols there ys
      | (mid, .error l) => (mid, .error l) := by
  induction xs generalizing out here with
  | nil => rfl
  | cons x xs ih =>
    simp only [List.cons_append, emit]
    split
    · rfl
    · exact ih _ _

end Output

/-- Lays down a program on top of what is there already. -/
def Program.emit (p : Program) (symbols : SymbolTable) (out : Output) : Output × Option Located :=
  match out.emit symbols none p.lines with
  | (out, .error l) => (out, some l)
  | (out, .ok _) => (out, p.fault.map fun f => f.2.inRow f.1)

end SS16
