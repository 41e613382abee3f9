import SS16.Source.Operand
import SS16.Proofs.Results

/-!
# SS16.Proofs.Source.Operands — what operands are made of

An operand has a literal of at most four hexadecimal digits, or a name, or neither.  So the bytes of
its literal can always be built.  Main statements: `Literal.wellFormed_of_read?`,
`Literal.exists_bytes` and `Operand.mem_named_iff` (the forms of an operand that have a name).
-/

namespace SS16

/-! ### Hexadecimal literals -/

namespace Digit

theorem toNat_lt_of_isDigit {c : Char} (h : isDigit 16 c) : c.toNat < 103 := by
  unfold isDigit value? at h
  split_ifs at h with h1 h2 h3
  · exact Nat.lt_of_le_of_lt h1.2 (by decide)
  · have hlt : c.toNat - 97 + 10 < 16 := by simpa using h
    omega
  · exact Nat.lt_of_le_of_lt h3.2 (by decide)
  · cases h

theorem isDigit_toUpper {c : Char} (h : isDigit 16 c) : isDigit 16 c.toUpper := by
  have hall : ∀ n < 103, isDigit 16 (Char.ofNat n) → isDigit 16 (Char.ofNat n).toUpper := by
    decide +kernel
  have hc := hall c.toNat (toNat_lt_of_isDigit h)
  rw [Char.ofNat_toNat] at hc
  exact hc h

end Digit

namespace Hex

theorem exists_pair {a b : Char} (ha : Digit.isDigit 16 a) (hb : Digit.isDigit 16 b) :
    ∃ x, pair? a b = some x := by
  unfold pair?
  rw [if_pos hb, if_pos ha]
  split
  · exact ⟨_, rfl⟩
  · exact ⟨_, rfl⟩

theorem length_padded {cs : List Char} (h : cs.length ≤ 4) :
    (List.replicate (4 - cs.length) '0' ++ cs.map Char.toUpper).length = 4 := by
  rw [List.length_append, List.length_replicate, List.length_map]
  omega

theorem exists_literal {s : String} (hlen : s.toList.length ≤ 4)
    (hall : s.toList.all (Digit.isDigit 16)) : ∃ bs, literal? s = some bs := by
  unfold literal? swap?
  dsimp only
  rw [if_pos ⟨hlen, hall⟩]
  simp only [Option.bind_eq_bind, Option.bind_some, bytes?, String.toList_ofList]
  have hdigits : ∀ c ∈ List.replicate (4 - s.toList.length) '0' ++ s.toList.map Char.toUpper,
      Digit.isDigit 16 c := by
    intro c hc
    rcases List.mem_append.1 hc with hc | hc
    · rw [List.eq_of_mem_replicate hc]
      decide
    · obtain ⟨d, hd, rfl⟩ := List.mem_map.1 hc
      exact Digit.isDigit_toUpper (List.all_eq_true.1 hall d hd)
  have hlen := length_padded hlen
  generalize List.replicate (4 - s.toList.length) '0' ++ s.toList.map Char.toUpper = ds
    at hdigits hlen
  obtain ⟨a, b, c, d, rfl⟩ := List.length_eq_four.1 hlen
  obtain ⟨x, hx⟩ := exists_pair (hdigits c (by simp)) (hdigits d (by simp))
  obtain ⟨y, hy⟩ := exists_pair (hdigits a (by simp)) (hdigits b (by simp))
  exact ⟨[x, y], by simp [pairs?, hx, hy]⟩

theorem length_of_literal {s : String} {bs : List UInt8} (h : literal? s = some bs) :
    bs.length = 2 := by
  unfold literal? swap? at h
  dsimp only at h
  split at h
  · rename_i hs
    simp only [Option.bind_eq_bind, Option.bind_some, bytes?, String.toList_ofList] at h
    have hlen := length_padded hs.1
    generalize List.replicate (4 - s.toList.length) '0' ++ s.toList.map Char.toUpper = ds at h hlen
    obtain ⟨a, b, c, d, rfl⟩ := List.length_eq_four.1 hlen
    simp only [List.drop_succ_cons, List.drop_zero, List.take_succ_cons, List.take_zero,
      List.cons_append, List.nil_append, pairs?, Option.bind_eq_bind, Option.bind_eq_some_iff,
      Option.pure_def, Option.some.injEq] at h
    obtain ⟨x, -, xs, ⟨y, -, ys, rfl, rfl⟩, rfl⟩ := h
    rfl
  · simp at h

end Hex

namespace Literal

/-- What a literal of an operand looks like: hexadecimal ones have up to four digits. -/
def WellFormed : Literal → Prop
  | decimal _ => True
  | hex ds => ds.toList.length ≤ 4 ∧ ds.toList.all (Digit.isDigit 16)

theorem length_of_shortHex? {ds es : List Char} (h : shortHex? ds = some es) : es.length ≤ 4 := by
  unfold shortHex? at h
  split_ifs at h with hd
  · cases h
    exact hd
  · split at h
    · cases h
      decide
    · split_ifs at h with he
      cases h
      exact he

theorem all_of_shortHex? {ds es : List Char} (h : shortHex? ds = some es)
    (hd : ds.all (Digit.isDigit 16)) : es.all (Digit.isDigit 16) := by
  unfold shortHex? at h
  split_ifs at h
  · cases h
    exact hd
  · split at h
    · cases h
      decide
    · split_ifs at h
      cases h
      rw [List.all_eq_true] at hd ⊢
      exact fun c hc => hd c ((List.dropWhile_sublist _).subset hc)

theorem wellFormed_of_read? {token : String} {cs : List Char} {l : Literal}
    (h : read? token cs = some (.ok l)) : l.WellFormed := by
  unfold read? at h
  dsimp only at h
  by_cases hdec : Numeral.isDecimal cs
  · rw [if_pos hdec] at h
    split_ifs at h
    · cases h
      exact trivial
    · cases h
  · rw [if_neg hdec] at h
    obtain ⟨ds, hds, h⟩ := Option.map_eq_some_iff.1 h
    cases hs : shortHex? ds with
    | none =>
      rw [hs] at h
      cases h
    | some es =>
      rw [hs] at h
      cases h
      have hnum := Numeral.isNumeral_of_hexDigits? hds
      unfold Numeral.isNumeral at hnum
      rw [Bool.and_eq_true] at hnum
      show (String.ofList es).toList.length ≤ 4 ∧ _
      rw [String.toList_ofList]
      exact ⟨length_of_shortHex? hs, all_of_shortHex? hs hnum.2⟩

theorem exists_bytes {l : Literal} (h : l.WellFormed) : ∃ bs, l.bytes = .ok bs := by
  cases l with
  | decimal v => exact ⟨_, rfl⟩
  | hex ds =>
    obtain ⟨bs, hbs⟩ := Hex.exists_literal h.1 h.2
    refine ⟨bs, ?_⟩
    show (Hex.literal? ds).elim _ _ = _
    rw [hbs]
    rfl

theorem length_of_bytes {l : Literal} {bs : List UInt8} (h : l.bytes = .ok bs) : bs.length = 2 := by
  cases l with
  | decimal v =>
    cases h
    exact LittleEndian.length_bytes 2 v.toNat
  | hex ds =>
    have h : (Hex.literal? ds).elim _ _ = _ := h
    cases hl : Hex.literal? ds with
    | none =>
      rw [hl] at h
      cases h
    | some xs =>
      rw [hl] at h
      cases h
      exact Hex.length_of_literal hl

end Literal

/-! ### Operands -/

def ExtraWord.WellFormed : ExtraWord → Prop
  | literal l => l.WellFormed
  | reference _ n => Identifier.isValid n

namespace Operand

/-- The names that an operand speaks of: `name`, `&name`, `$name` and `r1[name]` have one. -/
def named : Operand → List String
  | address n | memory n | relative n | indexed _ (.symbol n) => [n]
  | immediate _ | register _ | pointer _ | memoryAt _ | indexed _ (.literal _) => []

theorem toList_symbol? (op : Operand) : op.symbol?.toList = op.named := by
  cases op with
  | indexed r d => cases d <;> rfl
  | _ => rfl

theorem mem_named_iff {op : Operand} {n : String} : n ∈ op.named ↔ op.symbol? = some n := by
  rw [← toList_symbol?, Option.mem_toList]

theorem filterMap_symbol? (ops : List Operand) : ops.filterMap symbol? = ops.flatMap named := by
  rw [List.filterMap_eq_flatMap_toList]
  exact List.flatMap_congr fun op _ => op.toList_symbol?

theorem symbol?_eq_some {op : Operand} {n : String} (h : op.symbol? = some n) :
    ∃ kind, op.extra? = some (.reference kind n) := by
  unfold symbol? at h
  split at h
  · rename_i kind m hm
    cases h
    exact ⟨kind, hm⟩
  · cases h

end Operand

end SS16
