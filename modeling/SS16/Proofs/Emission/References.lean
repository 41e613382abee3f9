import SS16.Proofs.Emission.Fragments

/-!
# SS16.Proofs.Emission.References — what waits for a symbol

A reference is an operand or an element that speaks of a symbol: `Statement.references` reads them
off a statement and the place where it starts, in source order.  `Reference.Held`: the bytes and a
relocation hold what the reference asks for.  Main statement: `Statement.Puts.held`.
-/

namespace SS16

/-- An operand of an instruction or an element of data that speaks of a symbol. -/
structure Reference where
  name : String
  kind : RelocationKind
  /-- Where its placeholder starts. -/
  offset : UInt16
  /-- Bytes of the placeholder. -/
  size : Nat
  /-- The end of the instruction or the element. -/
  stop : UInt16

/-- The reference of an operand in an instruction that lies from `start` to `stop`. -/
def Operand.reference? (start stop : UInt16) : Operand → Option Reference
  | address n | memory n | indexed _ (.symbol n) => some ⟨n, .absolute, start + 2, 2, stop⟩
  | relative n => some ⟨n, .relative, start + 2, 2, stop⟩
  | immediate _ | register _ | pointer _ | memoryAt _ | indexed _ (.literal _) => none

def ExtraWord.reference? (start stop : UInt16) : ExtraWord → Option Reference
  | literal _ => none
  | reference kind name => some ⟨name, kind, start + 2, 2, stop⟩

/-- The reference of an element at an address; a number has none. -/
def Width.reference? (w : Width) (loc : UInt16) (arg : String) : Option Reference :=
  if (Numeral.integer? arg).isSome then none
  else some ⟨arg, .absolute, loc, w.size, loc + UInt16.ofNat w.size⟩

def Width.references (w : Width) (loc : UInt16) (args : List String) (i : Nat) : List Reference :=
  (args.zipIdx i).filterMap fun a => w.reference? (loc + UInt16.ofNat (a.2 * w.size)) a.1

def Operand.references (loc : UInt16) (ops : List Operand) : List Reference :=
  ops.filterMap (reference? loc (loc + UInt16.ofNat (instructionSize ops)))

theorem Operand.references_eq (loc : UInt16) (ops : List Operand) :
    references loc ops = (ops.filterMap extra?).filterMap
      (ExtraWord.reference? loc (loc + UInt16.ofNat (instructionSize ops))) := by
  unfold references
  rw [List.filterMap_filterMap]
  refine List.filterMap_congr fun op _ => ?_
  cases op with
  | indexed r d => cases d <;> rfl
  | _ => rfl

def Statement.references (loc : UInt16) : Statement → List Reference
  | data w args => w.references loc args 0
  | instruction _ args =>
    match args.mapM Operand.parse with
    | .ok ops => Operand.references loc ops
    | .error _ => []
  | stop | enter _ | skip _ | align _ | global _ => []

namespace Reference

/-- The placeholder of a reference among the bytes of its section. -/
def slot (ref : Reference) (bytes : List UInt8) : List UInt8 :=
  (bytes.drop ref.offset.toNat).take ref.size

theorem slot_append (ref : Reference) {pre xs : List UInt8} (hpre : pre.length = ref.offset.toNat)
    (hxs : xs.length = ref.size) (post : List UInt8) : ref.slot (pre ++ xs ++ post) = xs := by
  unfold slot
  rw [List.append_assoc, ← hpre, List.drop_left, ← hxs, List.take_left]

theorem slot_append_right {ref : Reference} {bytes : List UInt8}
    (h : (ref.slot bytes).length = ref.size) (more : List UInt8) :
    ref.slot (bytes ++ more) = ref.slot bytes := by
  have hle : ref.size ≤ (bytes.drop ref.offset.toNat).length := by
    unfold slot at h
    rw [List.length_take] at h
    omega
  unfold slot
  by_cases hz : ref.size = 0
  · rw [hz, List.take_zero, List.take_zero]
  · rw [List.drop_append_of_le_length, List.take_append_of_le_length hle]
    rw [List.length_drop] at hle
    omega

/-- A relocation belongs to a reference, and what the placeholder holds is the addend of the target
that the relocation waits for. -/
structure Held (symbols : SymbolTable) (bytes : List UInt8) (ref : Reference) (r : Relocation) :
    Prop where
  offset : r.offset = ref.offset
  kind : r.kind = ref.kind
  length : (ref.slot bytes).length = ref.size
  target : ∃ t, symbols.target ref.name = .ok t ∧ r.entry = t.entry ∧
    LittleEndian.value (ref.slot bytes) = (ref.kind.addend t.value).toNat

theorem Held.append {symbols : SymbolTable} {bytes : List UInt8} {ref : Reference} {r : Relocation}
    (h : ref.Held symbols bytes r) (more : List UInt8) : ref.Held symbols (bytes ++ more) r := by
  have hslot := slot_append_right h.length more
  refine ⟨h.offset, h.kind, ?_, ?_⟩
  · rw [hslot]
    exact h.length
  · rw [hslot]
    exact h.target

theorem held_append_all {symbols : SymbolTable} {bytes : List UInt8} {refs : List Reference}
    {rs : List Relocation} (h : List.Forall₂ (Held symbols bytes) refs rs) (more : List UInt8) :
    List.Forall₂ (Held symbols (bytes ++ more)) refs rs :=
  h.imp fun _ _ hr => hr.append more

end Reference

namespace LittleEndian

theorem value_word (w : UInt16) : value (word w) = w.toNat := by
  unfold word
  rw [value_bytes]
  exact Nat.mod_eq_of_lt w.toNat_lt

end LittleEndian

theorem toNat_add_ofNat {loc : UInt16} {n : Nat} (h : loc.toNat + n < UInt16.size) :
    (loc + UInt16.ofNat n).toNat = loc.toNat + n := by
  rw [UInt16.toNat_add, UInt16.toNat_ofNat_of_lt' (Nat.lt_of_le_of_lt (Nat.le_add_left _ _) h)]
  exact Nat.mod_eq_of_lt h

namespace Width

theorem references_cons (w : Width) (loc : UInt16) (arg : String) (args : List String) (i : Nat) :
    w.references loc (arg :: args) i =
      (w.reference? (loc + UInt16.ofNat (i * w.size)) arg).toList ++
        w.references loc args (i + 1) := by
  unfold references
  rw [List.zipIdx_cons, List.filterMap_cons]
  cases w.reference? (loc + UInt16.ofNat (i * w.size)) arg <;> rfl

/-- One element holds its reference, whatever stands before it. -/
theorem held_of_fragment {w : Width} {symbols : SymbolTable} {loc : UInt16} {arg : String}
    {rs : List Relocation} {pre bs : List UInt8} (hpre : pre.length = loc.toNat)
    (h : w.fragment symbols loc arg = ⟨rs, .ok bs⟩) :
    List.Forall₂ (Reference.Held symbols (pre ++ bs)) (w.reference? loc arg).toList rs := by
  have hlen := length_of_fragment h
  rcases fragment_eq_ok h with ⟨v, hv, rfl, -⟩ | ⟨t, hv, ht, rfl, hbs⟩
  · rw [reference?, hv]
    exact .nil
  · rw [reference?, hv]
    refine .cons ?_ .nil
    have hslot := Reference.slot_append ⟨arg, .absolute, loc, w.size, loc + UInt16.ofNat w.size⟩
      hpre hlen []
    rw [List.append_nil] at hslot
    refine ⟨rfl, rfl, ?_, t, ht, rfl, ?_⟩
    · rw [hslot]
      exact hlen
    · rw [hslot]
      exact LittleEndian.value_of_encode? (element_eq_ok.1 hbs)

theorem held_of_fragmentsFrom {w : Width} {symbols : SymbolTable} {loc : UInt16}
    {args : List String} {i : Nat} {rs : List Relocation} {pre bs : List UInt8}
    (hpre : pre.length = loc.toNat + i * w.size) (hfit : pre.length + bs.length < UInt16.size)
    (h : w.fragmentsFrom symbols loc args i = ⟨rs, .ok bs⟩) :
    List.Forall₂ (Reference.Held symbols (pre ++ bs)) (w.references loc args i) rs := by
  induction args generalizing i rs pre bs with
  | nil =>
    cases h
    exact .nil
  | cons arg args ih =>
    rw [fragmentsFrom_cons] at h
    obtain ⟨rs₁, xs, rs₂, ys, h1, h2, rfl, rfl⟩ := Fragment.append_eq_ok.1 h
    rw [List.length_append] at hfit
    have hloc : pre.length = (loc + UInt16.ofNat (i * w.size)).toNat := by
      rw [toNat_add_ofNat (by omega), hpre]
    have hfirst := held_of_fragment hloc h1
    have hrest : List.Forall₂ (Reference.Held symbols (pre ++ xs ++ ys))
        (w.references loc args (i + 1)) rs₂ := by
      refine ih ?_ ?_ h2
      · rw [List.length_append, length_of_fragment h1, hpre, Nat.succ_mul, Nat.add_assoc]
      · rw [List.length_append]
        omega
    rw [references_cons, ← List.append_assoc]
    exact List.rel_append (Reference.held_append_all hfirst ys) hrest

end Width

theorem Mnemonic.held_of_encodeOperands {m : Mnemonic} {symbols : SymbolTable} {loc : UInt16}
    {ops : List Operand} {e : EncodedInstruction} {pre : List UInt8}
    (hlen : ops.length = m.operation.arity) (hpre : pre.length = loc.toNat)
    (hfit : pre.length + e.bytes.length < UInt16.size)
    (h : m.encodeOperands symbols loc ops = .ok e) :
    List.Forall₂ (Reference.Held symbols (pre ++ e.bytes)) (Operand.references loc ops)
      e.relocation.toList := by
  obtain ⟨word, ews, hwords, hone, hword, hbytes, hrelocation⟩ := words_of_encodeOperands hlen h
  rw [hbytes, List.length_append, hword] at hfit
  rw [hbytes, hrelocation, Operand.references_eq]
  generalize loc + UInt16.ofNat (Operand.instructionSize ops) = stop
  generalize ops.filterMap Operand.extra? = ws at hwords
  cases hwords with
  | nil => exact .nil
  | @cons w ew ws ews hw hrest =>
    obtain rfl : ews = [] := List.length_eq_zero_iff.1 (by simpa using hone)
    obtain rfl : ws = [] := List.forall₂_nil_right_iff.1 hrest
    have hew := ExtraWord.length_of_encode hw
    cases w with
    | literal l =>
      obtain ⟨bs, -, rfl⟩ := Results.map_eq_ok_iff.1 hw
      exact .nil
    | reference kind name =>
      obtain ⟨t, ht, rfl⟩ := Results.map_eq_ok_iff.1 hw
      refine .cons ?_ .nil
      have hstart : (pre ++ word).length = (loc + 2).toNat := by
        rw [List.length_append, hword, hpre]
        exact (toNat_add_ofNat (n := 2) (by omega)).symm
      have hslot := Reference.slot_append ⟨name, kind, loc + 2, 2, stop⟩ hstart hew []
      rw [List.flatMap_singleton, ← List.append_assoc]
      rw [List.append_nil] at hslot
      refine ⟨rfl, rfl, ?_, t, ht, rfl, ?_⟩
      · rw [hslot]
        exact hew
      · rw [hslot]
        exact LittleEndian.value_word _

namespace Statement

theorem references_of_not_occupies {s : Statement} (h : s.occupies = false) (loc : UInt16) :
    s.references loc = [] := by
  cases s with
  | stop | enter _ | global _ => rfl
  | _ => cases h

theorem references_instruction {args : List String} {ops : List Operand}
    (h : args.mapM Operand.parse = .ok ops) (m : Mnemonic) (loc : UInt16) :
    (instruction m args).references loc = Operand.references loc ops := by
  unfold references
  dsimp only
  rw [h]

theorem Puts.held {s : Statement} {symbols : SymbolTable} {p : Place} {rs : List Relocation}
    {pre bs : List UInt8} (h : s.Puts symbols p rs bs) (hpre : pre.length = p.location.toNat)
    (hfit : pre.length + bs.length < UInt16.size) :
    List.Forall₂ (Reference.Held symbols (pre ++ bs)) (s.references p.location) rs := by
  cases h with
  | data w args _ _ _ h =>
    refine Width.held_of_fragmentsFrom ?_ hfit h
    rw [hpre, Nat.zero_mul, Nat.add_zero]
  | instruction m args ops e _ hops hlen he =>
    rw [references_instruction hops]
    exact Mnemonic.held_of_encodeOperands hlen hpre hfit he
  | skip n => exact .nil
  | align n a ha => exact .nil
  | nothing _ hn =>
    rw [references_of_not_occupies hn]
    exact .nil

/-- A relative reference is one of an instruction, which ends right after the extra word. -/
theorem stop_of_mem_references {s : Statement} {loc : UInt16} {ref : Reference}
    (h : ref ∈ s.references loc) (hr : ref.kind = .relative) : ref.stop = ref.offset + 2 := by
  cases s with
  | data w args =>
    obtain ⟨⟨arg, i⟩, -, ha⟩ := List.mem_filterMap.1 h
    unfold Width.reference? at ha
    split_ifs at ha
    cases ha
    cases hr
  | instruction m args =>
    unfold references at h
    dsimp only at h
    split at h
    · rename_i ops _
      rw [Operand.references_eq] at h
      obtain ⟨w, hw, href⟩ := List.mem_filterMap.1 h
      have hsize : Operand.instructionSize ops = 4 := by
        rw [Operand.instructionSize_eq, if_neg (List.ne_nil_of_mem hw)]
      cases w with
      | literal l => cases href
      | reference kind n =>
        cases href
        show loc + UInt16.ofNat (Operand.instructionSize ops) = loc + 2 + 2
        rw [hsize, UInt16.add_assoc]
        rfl
    · cases h
  | _ => cases h

theorem Puts.references_eq_nil {s : Statement} {symbols : SymbolTable} {p : Place}
    {rs : List Relocation} {bs : List UInt8} (h : s.Puts symbols p rs bs)
    (hp : p.kind.hasContents = false) : s.references p.location = [] ∧ rs = [] := by
  cases h with
  | data w args _ _ hc h =>
    have hargs : args = [] := by
      by_contra hne
      simp [hc hne] at hp
    subst hargs
    cases h
    exact ⟨rfl, rfl⟩
  | instruction m args ops e hk =>
    rw [hk] at hp
    cases hp
  | skip n => exact ⟨rfl, rfl⟩
  | align n a ha => exact ⟨rfl, rfl⟩
  | nothing _ hn => exact ⟨references_of_not_occupies hn _, rfl⟩

end Statement

end SS16
