import SS16.Assembly.Emission
import SS16.Proofs.Emission.Instruction
import SS16.Proofs.Layout.Program
import Mathlib.Algebra.Order.Group.Nat

/-!
# SS16.Proofs.Emission.Fragments — how many bytes a statement lays down

`Statement.Puts` says what a statement lays down when its fragment does not fail, and a statement
moves the place by exactly those bytes, so the two sweeps agree about it.  Main statements:
`Statement.puts_of_fragment` and `Statement.Puts.next`.
-/

namespace SS16

namespace LittleEndian

theorem length_of_encode? {size : Nat} {v : Int} {bs : List UInt8} (h : encode? size v = some bs) :
    bs.length = size := by
  unfold encode? at h
  split_ifs at h
  cases h
  exact length_bytes size _

theorem value_of_encode? {size n : Nat} {bs : List UInt8} (h : encode? size n = some bs) :
    value bs = n := by
  unfold encode? at h
  split_ifs at h with hfits
  cases h
  unfold fits at hfits
  rw [Bool.and_eq_true, decide_eq_true_iff, decide_eq_true_iff] at hfits
  rw [value_bytes]
  have hlt : n < capacity size := by exact_mod_cast hfits.2
  have hmod : ((n : Int) % (capacity size : Int)).toNat = n := by
    rw [← Int.natCast_emod, Int.toNat_natCast, Nat.mod_eq_of_lt hlt]
  rw [hmod, Nat.mod_eq_of_lt hlt]

end LittleEndian

namespace Fragment

theorem append_eq_ok {a b : Fragment} {rs : List Relocation} {bs : List UInt8} :
    a.append b = ⟨rs, .ok bs⟩ ↔
      ∃ rs₁ xs rs₂ ys, a = ⟨rs₁, .ok xs⟩ ∧ b = ⟨rs₂, .ok ys⟩ ∧ rs = rs₁ ++ rs₂ ∧ bs = xs ++ ys := by
  obtain ⟨rs₁, x⟩ := a
  obtain ⟨rs₂, y⟩ := b
  cases x with
  | error f => simp [append]
  | ok xs =>
    cases y with
    | error f => simp [append, Except.map]
    | ok ys =>
      simp only [append, Except.map, mk.injEq, Except.ok.injEq]
      constructor
      · rintro ⟨rfl, rfl⟩
        exact ⟨rs₁, xs, rs₂, ys, ⟨rfl, rfl⟩, ⟨rfl, rfl⟩, rfl, rfl⟩
      · rintro ⟨_, _, _, _, ⟨rfl, rfl⟩, ⟨rfl, rfl⟩, rfl, rfl⟩
        exact ⟨rfl, rfl⟩

theorem exists_of_join_eq_error {parts : List Fragment} {f : Fault}
    (h : (join parts).bytes = .error f) : ∃ part ∈ parts, part.bytes = .error f := by
  induction parts with
  | nil => cases h
  | cons a parts ih =>
    have h : (a.append (join parts)).bytes = .error f := h
    unfold append at h
    cases ha : a.bytes with
    | error f' =>
      rw [ha] at h
      exact ⟨a, List.mem_cons_self, h⟩
    | ok xs =>
      rw [ha] at h
      obtain ⟨part, hpart, he⟩ := ih (Results.map_eq_error_iff.1 h)
      exact ⟨part, List.mem_cons_of_mem a hpart, he⟩

end Fragment

namespace Width

theorem element_eq_ok {w : Width} {arg : String} {v : Int} {bs : List UInt8} :
    w.element arg v = .ok bs ↔ LittleEndian.encode? w.size v = some bs := by
  unfold element
  cases LittleEndian.encode? w.size v <;> simp

theorem element_eq_error {w : Width} {arg : String} {v : Int} {f : Fault}
    (h : w.element arg v = .error f) : f = .literalOverflow arg w.size := by
  unfold element at h
  cases he : LittleEndian.encode? w.size v with
  | some bs =>
    rw [he] at h
    cases h
  | none =>
    rw [he] at h
    cases h
    rfl

/-- An element is a number without a relocation or the value of a target that waits for its entry. -/
theorem fragment_eq_ok {w : Width} {symbols : SymbolTable} {loc : UInt16} {arg : String}
    {rs : List Relocation} {bs : List UInt8} (h : w.fragment symbols loc arg = ⟨rs, .ok bs⟩) :
    (∃ v, Numeral.integer? arg = some v ∧ rs = [] ∧ w.element arg v = .ok bs) ∨
      ∃ t, Numeral.integer? arg = none ∧ symbols.target arg = .ok t ∧
        rs = [⟨loc, .absolute, t.entry⟩] ∧ w.element arg t.value.toNat = .ok bs := by
  unfold fragment at h
  cases hv : Numeral.integer? arg with
  | some v =>
    rw [hv] at h
    dsimp only at h
    rw [Fragment.mk.injEq] at h
    exact .inl ⟨v, rfl, h.1.symm, h.2⟩
  | none =>
    rw [hv] at h
    cases ht : symbols.target arg with
    | error f =>
      rw [ht] at h
      cases h
    | ok t =>
      rw [ht] at h
      dsimp only at h
      rw [Fragment.mk.injEq] at h
      exact .inr ⟨t, rfl, rfl, h.1.symm, h.2⟩

theorem length_of_fragment {w : Width} {symbols : SymbolTable} {loc : UInt16} {arg : String}
    {rs : List Relocation} {bs : List UInt8} (h : w.fragment symbols loc arg = ⟨rs, .ok bs⟩) :
    bs.length = w.size := by
  rcases fragment_eq_ok h with ⟨v, -, -, h⟩ | ⟨t, -, -, -, h⟩
  · exact LittleEndian.length_of_encode? (element_eq_ok.1 h)
  · exact LittleEndian.length_of_encode? (element_eq_ok.1 h)

/-- Elements from the `i`-th address on. -/
def fragmentsFrom (w : Width) (symbols : SymbolTable) (loc : UInt16) (args : List String)
    (i : Nat) : Fragment :=
  Fragment.join ((args.zipIdx i).map fun a =>
    w.fragment symbols (loc + UInt16.ofNat (a.2 * w.size)) a.1)

theorem fragmentsFrom_cons (w : Width) (symbols : SymbolTable) (loc : UInt16) (arg : String)
    (args : List String) (i : Nat) :
    w.fragmentsFrom symbols loc (arg :: args) i =
      (w.fragment symbols (loc + UInt16.ofNat (i * w.size)) arg).append
        (w.fragmentsFrom symbols loc args (i + 1)) := rfl

theorem length_of_fragmentsFrom {w : Width} {symbols : SymbolTable} {loc : UInt16}
    {args : List String} {i : Nat} {rs : List Relocation} {bs : List UInt8}
    (h : w.fragmentsFrom symbols loc args i = ⟨rs, .ok bs⟩) :
    bs.length = args.length * w.size := by
  induction args generalizing i rs bs with
  | nil =>
    cases h
    exact (Nat.zero_mul w.size).symm
  | cons arg args ih =>
    rw [fragmentsFrom_cons] at h
    obtain ⟨rs₁, xs, rs₂, ys, h1, h2, rfl, rfl⟩ := Fragment.append_eq_ok.1 h
    rw [List.length_append, length_of_fragment h1, ih h2, List.length_cons, Nat.succ_mul,
      Nat.add_comm]

end Width

theorem le_of_alignUp {location n a : UInt16} (h : alignUp location n = some a) :
    location.toNat ≤ a.toNat := by
  by_cases hn : n ≤ 1
  · rw [alignUp_of_le_one hn] at h
    obtain rfl := Option.some.inj h
    exact Nat.le_refl _
  · exact UInt16.le_iff_toNat_le.1 ((alignUp_eq_some_iff (UInt16.not_le.1 hn)).1 h).2.1

/-- What a statement puts at a place, when its fragment does not fail. -/
inductive Statement.Puts (symbols : SymbolTable) (p : Place) :
    Statement → List Relocation → List UInt8 → Prop
  | data (w : Width) (args : List String) (rs : List Relocation) (bs : List UInt8)
    (hc : args ≠ [] → p.kind.hasContents)
    (h : w.fragmentsFrom symbols p.location args 0 = ⟨rs, .ok bs⟩) :
    Puts symbols p (.data w args) rs bs
  | skip (n : UInt16) : Puts symbols p (.skip n) [] (List.replicate n.toNat 0)
  | align (n a : UInt16) (h : alignUp p.location n = some a) :
    Puts symbols p (.align n) [] (List.replicate (a.toNat - p.location.toNat) 0)
  | instruction (m : Mnemonic) (args : List String) (ops : List Operand) (e : EncodedInstruction)
    (hk : p.kind = .text) (hops : args.mapM Operand.parse = .ok ops)
    (hlen : ops.length = m.operation.arity)
    (h : m.encodeOperands symbols p.location ops = .ok e) :
    Puts symbols p (.instruction m args) e.relocation.toList e.bytes
  | nothing (s : Statement) (h : s.occupies = false) : Puts symbols p s [] []

namespace Statement

theorem puts_of_fragment {s : Statement} {symbols : SymbolTable} {p : Place}
    {rs : List Relocation} {bs : List UInt8} (h : s.fragment symbols p = ⟨rs, .ok bs⟩) :
    s.Puts symbols p rs bs := by
  cases s with
  | data w args =>
    unfold fragment at h
    dsimp only at h
    split_ifs at h with hc
    · cases h
    · refine .data w args rs bs (fun hne => ?_) h
      by_contra hp
      exact hc (by simp [hne, hp])
  | skip n =>
    cases h
    exact .skip n
  | align n =>
    unfold fragment at h
    dsimp only at h
    cases ha : alignUp p.location n with
    | none =>
      rw [ha] at h
      cases h
    | some a =>
      rw [ha] at h
      cases h
      exact .align n a ha
  | instruction m args =>
    unfold fragment at h
    dsimp only at h
    split_ifs at h with hk
    · cases he : m.encode symbols p.location args with
      | error f =>
        rw [he] at h
        cases h
      | ok e =>
        rw [he] at h
        cases h
        obtain ⟨ops, hops, hlen, he⟩ := Mnemonic.encode_eq_ok he
        exact .instruction m args ops e hk hops hlen he
    · cases h
  | stop | enter _ | global _ =>
    cases h
    exact .nothing _ rfl

theorem toNat_dataSize {w : Width} {count : Nat} (h : count * w.size < 2 ^ 32) :
    (dataSize w count).toNat = count * w.size := by
  unfold dataSize
  rw [UInt32.toNat_mul, UInt32.toNat_ofNat', UInt32.toNat_ofNat', ← Nat.mul_mod,
    Nat.mod_eq_of_lt h]

theorem next_data (w : Width) (args : List String) (here : Option Place) :
    (data w args).steps.foldl Step.next here =
      (Step.advance (dataSize w args.length).toNat).next here := by
  show ((args.filterMap (dataStep w)) ++ [_]).foldl Step.next here = _
  rw [List.foldl_append, Step.foldl_next_eq_self fun _ ht here => next_of_mem_dataSteps ht here]
  rfl

theorem next_instruction {m : Mnemonic} {args : List String} {ops : List Operand}
    (h : args.mapM Operand.parse = .ok ops) (here : Option Place) :
    (instruction m args).steps.foldl Step.next here =
      (Step.advance (Operand.instructionSize ops)).next here := by
  show (operandSteps args).foldl Step.next here = _
  unfold operandSteps
  rw [h]
  have hstill : ∀ s ∈ (ops.filterMap Operand.symbol?).map Step.use, ∀ here, s.next here = here := by
    intro s hs here
    obtain ⟨n, -, rfl⟩ := List.mem_map.1 hs
    rfl
  dsimp only
  rw [List.foldl_append, Step.foldl_next_eq_self hstill]
  rfl

theorem next_advance {p q : Place} {n : Nat} (h : p.advance? n = some q) :
    (Step.advance n).next (some p) = some q := by
  show some ((p.advance? n).getD p) = some q
  rw [h]
  rfl

theorem Puts.next {s : Statement} {symbols : SymbolTable} {p q : Place} {rs : List Relocation}
    {bs : List UInt8} (h : s.Puts symbols p rs bs) (ho : s.occupies)
    (hq : p.advance? bs.length = some q) : s.steps.foldl Step.next (some p) = some q := by
  cases h with
  | data w args _ _ _ h =>
    have hlen := Width.length_of_fragmentsFrom h
    have hlt : p.location.toNat + bs.length < UInt16.size := by
      rw [← (Place.advance?_eq_some_iff.1 hq).2]
      exact q.location.toNat_lt
    rw [next_data, toNat_dataSize, ← hlen]
    · exact next_advance hq
    · rw [← hlen]
      exact Nat.lt_trans (Nat.lt_of_le_of_lt (Nat.le_add_left _ _) hlt) (by decide)
  | skip n =>
    rw [List.length_replicate] at hq
    exact next_advance hq
  | align n a ha =>
    rw [List.length_replicate] at hq
    obtain ⟨hk, hl⟩ := Place.advance?_eq_some_iff.1 hq
    have hle : p.location.toNat ≤ a.toNat := le_of_alignUp ha
    have hqa : q.location = a := UInt16.toNat_inj.1 (by omega)
    show some ((p.align? n).getD p) = some q
    unfold Place.align?
    rw [ha, ← hqa]
    show some (Place.mk p.kind q.location) = some q
    rw [← hk]
  | instruction m args ops e _ hops hlen he =>
    rw [Mnemonic.length_of_encodeOperands hlen he] at hq
    rw [next_instruction hops]
    exact next_advance hq
  | nothing _ hn =>
    rw [hn] at ho
    cases ho

end Statement

end SS16
