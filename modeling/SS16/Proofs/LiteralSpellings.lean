import SS16.Proofs.Emission.Fragments
import SS16.Proofs.NumberSyntax
import SS16.Proofs.OperandGrammar

/-!
# SS16.Proofs.LiteralSpellings — all spellings of a number are encoded alike

A 16-bit number can be written in decimal or hexadecimal digits, with any zeros in front.  Operands
and data are encoded from the number alone, although decimal operands, hexadecimal operands and data
are read in three different ways.  Main statements: `Operand.encodeWord_of_written`,
`Width.fragment_of_written` and `encode_spellings`.
-/

namespace SS16

/-! ### Operands -/

namespace Operand

/-- Reads a word and encodes its operand for an instruction at a given address. -/
def encodeWord (symbols : SymbolTable) (loc : UInt16) (token : String) :
    Except Fault EncodedOperand :=
  (parse token).bind (encode symbols loc)

theorem encodeWord_of_written {base n : Nat} {token cs : List Char} {make : Literal → Operand}
    {f : Field} (hframe : Frame token cs make) (hfield : ∀ l, (make l).field = f)
    (hw : Literal.Written base cs n) (hn : n < UInt16.size) (symbols : SymbolTable)
    (loc : UInt16) :
    encodeWord symbols loc (String.ofList token) =
      .ok ⟨f, some ⟨LittleEndian.bytes 2 n, none⟩⟩ := by
  obtain ⟨l, hread, -, hholds⟩ := (Literal.read?_of_written hw (String.ofList token)).1 hn
  have hbytes := Literal.bytes_of_holds (Literal.wellFormed_of_read? hread) hholds
  have hparse : parse (String.ofList token) = .ok (make l) :=
    parse_of_frame (by rwa [String.toList_ofList]) hread
  unfold encodeWord
  rw [hparse]
  show encode symbols loc (make l) = _
  unfold encode
  rw [hframe.extra?, hfield]
  show Except.map _ (Except.map _ l.bytes) = _
  rw [hbytes]
  rfl

end Operand

/-! ### Data -/

namespace Numeral

theorem integer?_of_written {base n : Nat} {cs : List Char} (h : Literal.Written base cs n)
    (hn : n ≤ maxMagnitude) : integer? (String.ofList cs) = some (n : Int) := by
  have hmark : ∃ mark ds base, Mark mark base ∧ cs = mark ++ ds ∧ Denotes base ds n := by
    cases h with
    | decimal h => exact ⟨_, _, _, .decimal, rfl, h⟩
    | hex h => exact ⟨_, _, _, .hexadecimal, rfl, h⟩
  obtain ⟨mark, ds, base, hmark, hcs, hds⟩ := hmark
  have hread := magnitude?_eq_some_iff.2 ⟨mark, ds, base, hmark, hcs, hds, hn⟩
  rw [integer?_eq_some_iff, String.toList_ofList]
  exact .positive (magnitude?_eq_some_iff_magnitude.1 hread)

end Numeral

theorem LittleEndian.encode?_word {n : Nat} (h : n < UInt16.size) :
    encode? 2 (n : Int) = some (bytes 2 n) := by
  have hcapacity : capacity 2 = 65536 := rfl
  have hlt : n < 65536 := h
  have hfits : fits 2 (n : Int) := by
    unfold fits
    rw [hcapacity, Bool.and_eq_true, decide_eq_true_iff, decide_eq_true_iff]
    omega
  have hmod : ((n : Int) % (65536 : Nat)).toNat = n := by omega
  unfold encode?
  rw [if_pos hfits, hcapacity, hmod]

theorem Width.fragment_of_written {base n : Nat} {cs : List Char} (h : Literal.Written base cs n)
    (hn : n < UInt16.size) (symbols : SymbolTable) (loc : UInt16) :
    word.fragment symbols loc (String.ofList cs) = ⟨[], .ok (LittleEndian.bytes 2 n)⟩ := by
  have hmax : n ≤ Numeral.maxMagnitude := Nat.le_trans (Nat.le_of_lt hn) (by decide)
  have helement : word.element (String.ofList cs) n = .ok (LittleEndian.bytes 2 n) :=
    element_eq_ok.2 (LittleEndian.encode?_word hn)
  unfold fragment
  rw [Numeral.integer?_of_written h hmax]
  dsimp only
  rw [helement]

theorem Statement.fragment_data_singleton {symbols : SymbolTable} {p : Place}
    (hp : p.kind.hasContents) (w : Width) (arg : String) :
    fragment symbols p (.data w [arg]) = w.fragment symbols p.location arg := by
  show (if _ then _ else w.fragments symbols p.location [arg]) = _
  rw [if_neg (by simp [hp])]
  show (w.fragment symbols (p.location + UInt16.ofNat (0 * w.size)) arg).append .empty = _
  rw [Nat.zero_mul, Fragment.append_empty]
  simp

/-! ### Both -/

/-- A number is encoded alike however it is spelled, in decimal or in hexadecimal digits: as an
operand `42`, `*42` or `r1[42]` it has the field of that form and an extra word with its two bytes,
which waits for nothing, and `.word 42` lays down the same two bytes. -/
theorem encode_spellings {n : UInt16} {d h : List Char} (hd : Numeral.Denotes 10 d n.toNat)
    (hh : Numeral.Denotes 16 h n.toNat) (symbols : SymbolTable) (loc : UInt16) :
    ∀ cs ∈ [d, '0' :: 'x' :: h],
      Operand.encodeWord symbols loc (String.ofList cs) =
        .ok ⟨.zero, some ⟨LittleEndian.word n, none⟩⟩ ∧
      Operand.encodeWord symbols loc (String.ofList ('*' :: cs)) =
        .ok ⟨.memory, some ⟨LittleEndian.word n, none⟩⟩ ∧
      (∀ i r, (i, r) ∈ Register.digits →
        Operand.encodeWord symbols loc (String.ofList ('r' :: i :: '[' :: (cs ++ [']']))) =
          .ok ⟨.indexed r, some ⟨LittleEndian.word n, none⟩⟩) ∧
      ∀ p : Place, p.kind.hasContents →
        Statement.fragment symbols p (.data .word [String.ofList cs]) =
          ⟨[], .ok (LittleEndian.word n)⟩ := by
  intro cs hcs
  have hw : ∃ base, Literal.Written base cs n.toNat := by
    rcases List.mem_cons.1 hcs with rfl | hcs
    · exact ⟨10, .decimal hd⟩
    · obtain rfl := List.mem_singleton.1 hcs
      exact ⟨16, .hex hh⟩
  obtain ⟨base, hw⟩ := hw
  have hn := n.toNat_lt
  refine ⟨?_, ?_, fun i r hi => ?_, fun p hp => ?_⟩
  · exact Operand.encodeWord_of_written (.immediate cs) (fun _ => rfl) hw hn symbols loc
  · exact Operand.encodeWord_of_written (.memoryAt cs) (fun _ => rfl) hw hn symbols loc
  · exact Operand.encodeWord_of_written (.indexed hi cs) (fun _ => rfl) hw hn symbols loc
  · rw [Statement.fragment_data_singleton hp]
    exact Width.fragment_of_written hw hn symbols p.location

theorem encode_spellings_zeros_and_case :
    Numeral.Denotes 10 "00171".toList (171 : UInt16).toNat ∧
      Numeral.Denotes 16 "00000aB".toList (171 : UInt16).toNat ∧
      Operand.encodeWord .empty 6 "r3[00171]" = .ok ⟨.indexed .r3, some ⟨[0xAB, 0], none⟩⟩ ∧
      Operand.encodeWord .empty 6 "r3[0x00000aB]" = .ok ⟨.indexed .r3, some ⟨[0xAB, 0], none⟩⟩ ∧
      Statement.fragment .empty ⟨.data, 6⟩ (.data .word ["0x00000aB"]) = ⟨[], .ok [0xAB, 0]⟩ := by
  have hd : Numeral.Denotes 10 "00171".toList (171 : UInt16).toNat :=
    (Numeral.denotes_iff (by decide)).2 (by decide)
  have hh : Numeral.Denotes 16 "00000aB".toList (171 : UInt16).toNat :=
    (Numeral.denotes_iff (by decide)).2 (by decide)
  have hall := encode_spellings hd hh .empty 6
  have hi : ('3', Register.r3) ∈ Register.digits := by decide
  obtain ⟨-, -, hdecimal, -⟩ := hall "00171".toList (by simp)
  obtain ⟨-, -, hhex, hword⟩ := hall ('0' :: 'x' :: "00000aB".toList) (by simp)
  exact ⟨hd, hh, hdecimal '3' .r3 hi, hhex '3' .r3 hi, hword ⟨.data, 6⟩ rfl⟩

end SS16
