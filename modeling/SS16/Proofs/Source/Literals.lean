import Mathlib.Data.List.Induction
import Mathlib.Data.Nat.Digits.Defs
import SS16.Proofs.Source.Operands

/-!
# SS16.Proofs.Source.Literals — the numbers that literals stand for

A literal of an operand is a numeral, in decimal or behind `0x`, and it is read if its number fits in
16 bits, whatever zeros stand in front and in whatever case its digits are.  Main statements:
`Literal.read?_of_written` (what is written as a literal is read, if it fits),
`Literal.spelled_of_read?` (nothing else is) and `Literal.bytes_of_holds` (the bytes of a literal are
those of its number).
-/

namespace SS16

/-! ### Digits and numerals -/

namespace Digit

theorem value_lt {base : Nat} {c : Char} (h : isDigit base c) : value c < base := by
  unfold isDigit at h
  unfold value
  cases hv : value? c with
  | none =>
    rw [hv] at h
    cases h
  | some v =>
    rw [hv] at h
    exact of_decide_eq_true h

/-- Hexadecimal digits are ASCII, so that a closed check tells what holds of all of them. -/
theorem forall_isDigit {P : Char → Prop}
    (h : ∀ n < 103, isDigit 16 (Char.ofNat n) → P (Char.ofNat n)) {c : Char} (hc : isDigit 16 c) :
    P c := by
  have hall := h c.toNat (toNat_lt_of_isDigit hc)
  rw [Char.ofNat_toNat] at hall
  exact hall hc

theorem value_toUpper {c : Char} (h : isDigit 16 c) : value c.toUpper = value c :=
  forall_isDigit (P := fun c => value c.toUpper = value c) (by decide +kernel) h

theorem value_pos {c : Char} (h : isDigit 16 c) (hne : c ≠ '0') : 0 < value c :=
  forall_isDigit (P := fun c => c ≠ '0' → 0 < value c) (by decide +kernel) h hne

/-- Whether a character is the digit of a value: `0` to `9`, and from ten on letters from `a` on, in
either case. -/
def Stands (c : Char) (d : Nat) : Prop := c = Nat.digitChar d ∨ c = (Nat.digitChar d).toUpper

instance (c : Char) (d : Nat) : Decidable (Stands c d) := inferInstanceAs (Decidable (_ ∨ _))

theorem stands_value {base : Nat} (hb : base ≤ 16) {c : Char} (h : isDigit base c) :
    Stands c (value c) := by
  have hlt := value_lt h
  have hhex : isDigit 16 c := by
    unfold isDigit at h ⊢
    rw [Option.any_eq_true] at h ⊢
    obtain ⟨v, hv, hvb⟩ := h
    exact ⟨v, hv, decide_eq_true (Nat.lt_of_lt_of_le (of_decide_eq_true hvb) hb)⟩
  exact forall_isDigit (P := fun c => Stands c (value c)) (by decide +kernel) hhex

theorem value?_of_stands {c : Char} {d : Nat} (hd : d < 16) (h : Stands c d) :
    value? c = some d := by
  have hlower : ∀ d < 16, value? (Nat.digitChar d) = some d := by decide
  have hupper : ∀ d < 16, value? (Nat.digitChar d).toUpper = some d := by decide
  rcases h with rfl | rfl
  · exact hlower d hd
  · exact hupper d hd

theorem isDigit_iff {base : Nat} (hb : base ≤ 16) {c : Char} :
    isDigit base c ↔ ∃ d < base, Stands c d := by
  constructor
  · intro h
    exact ⟨value c, value_lt h, stands_value hb h⟩
  · rintro ⟨d, hd, h⟩
    unfold isDigit
    rw [value?_of_stands (Nat.lt_of_lt_of_le hd hb) h]
    exact decide_eq_true hd

end Digit

namespace Numeral

theorem value_eq_ofDigits (base : Nat) (cs : List Char) :
    value base cs = Nat.ofDigits base (cs.map Digit.value).reverse := by
  induction cs using List.reverseRecOn with
  | nil => rfl
  | append_singleton cs c ih =>
    unfold value at ih ⊢
    rw [List.foldl_append, List.foldl_cons, List.foldl_nil, ih, List.map_append, List.map_singleton,
      List.reverse_append, List.reverse_singleton, List.singleton_append, Nat.ofDigits_cons,
      Nat.add_comm, Nat.mul_comm]

theorem value_cons (base : Nat) (c : Char) (cs : List Char) :
    value base (c :: cs) = Digit.value c * base ^ cs.length + value base cs := by
  rw [value_eq_ofDigits, value_eq_ofDigits, List.map_cons, Nat.ofDigits_reverse_cons,
    List.length_map, Nat.add_comm, Nat.mul_comm]

theorem value_lt_pow {base : Nat} (hb : 1 < base) {cs : List Char}
    (h : ∀ c ∈ cs, Digit.isDigit base c) : value base cs < base ^ cs.length := by
  have hlt : ∀ d ∈ (cs.map Digit.value).reverse, d < base := by
    intro d hd
    obtain ⟨c, hc, rfl⟩ := List.mem_map.1 (List.mem_reverse.1 hd)
    exact Digit.value_lt (h c hc)
  have hofDigits := Nat.ofDigits_lt_base_pow_length hb hlt
  rwa [List.length_reverse, List.length_map, ← value_eq_ofDigits] at hofDigits

theorem value_dropWhile (base : Nat) (cs : List Char) :
    value base (cs.dropWhile (· == '0')) = value base cs := by
  induction cs with
  | nil => rfl
  | cons c cs ih =>
    rw [List.dropWhile_cons]
    split_ifs with hc
    · rw [ih, eq_of_beq hc, value_cons, show Digit.value '0' = 0 from rfl, Nat.zero_mul,
        Nat.zero_add]
    · rfl

theorem pow_le_value {c : Char} {cs : List Char} (h : Digit.isDigit 16 c) (hne : c ≠ '0') :
    16 ^ cs.length ≤ value 16 (c :: cs) := by
  rw [value_cons]
  exact Nat.le_add_right_of_le (Nat.le_mul_of_pos_left _ (Digit.value_pos h hne))

theorem isNumeral_iff {base : Nat} {cs : List Char} :
    isNumeral base cs ↔ cs ≠ [] ∧ ∀ c ∈ cs, Digit.isDigit base c := by
  unfold isNumeral
  rw [Bool.and_eq_true, List.all_eq_true, Bool.not_eq_true', List.isEmpty_eq_false_iff]

/-- Digits of a base with their values, at least one. -/
structure Digits (base : Nat) (cs : List Char) (ds : List Nat) : Prop where
  ne_nil : ds ≠ []
  digits : List.Forall₂ (fun c d => d < base ∧ Digit.Stands c d) cs ds

/-- Whether characters are a numeral of a base that stands for a number.  Zeros may stand in front,
and digits above nine may be letters in either case. -/
def Denotes (base : Nat) (cs : List Char) (n : Nat) : Prop :=
  ∃ ds, Digits base cs ds ∧ Nat.ofDigits base ds.reverse = n

theorem Digits.map_value {base : Nat} (hb : base ≤ 16) {cs : List Char} {ds : List Nat}
    (h : Digits base cs ds) : cs.map Digit.value = ds := by
  rw [← List.forall₂_eq_eq_eq, List.forall₂_map_left_iff]
  refine h.digits.imp fun c d ⟨hd, hc⟩ => ?_
  unfold Digit.value
  rw [Digit.value?_of_stands (Nat.lt_of_lt_of_le hd hb) hc]
  rfl

theorem digits_map_value {base : Nat} (hb : base ≤ 16) {cs : List Char} (hne : cs ≠ [])
    (h : ∀ c ∈ cs, Digit.isDigit base c) : Digits base cs (cs.map Digit.value) := by
  refine ⟨mt List.map_eq_nil_iff.1 hne, ?_⟩
  rw [List.forall₂_map_right_iff, List.forall₂_same]
  exact fun c hc => ⟨Digit.value_lt (h c hc), Digit.stands_value hb (h c hc)⟩

theorem Denotes.ne_nil {base : Nat} {cs : List Char} {n : Nat} (h : Denotes base cs n) :
    cs ≠ [] := by
  obtain ⟨ds, hds, -⟩ := h
  rintro rfl
  exact hds.ne_nil (List.forall₂_nil_left_iff.1 hds.digits)

theorem Denotes.isDigit {base : Nat} (hb : base ≤ 16) {cs : List Char} {n : Nat}
    (h : Denotes base cs n) : ∀ c ∈ cs, Digit.isDigit base c := by
  intro c hc
  obtain ⟨ds, hds, -⟩ := h
  obtain ⟨d, -, hd⟩ := Results.exists_of_mem_forall₂ hds.digits.flip hc
  exact (Digit.isDigit_iff hb).2 ⟨d, hd⟩

theorem denotes_iff {base : Nat} (hb : base ≤ 16) {cs : List Char} {n : Nat} :
    Denotes base cs n ↔ isNumeral base cs ∧ value base cs = n := by
  rw [isNumeral_iff, value_eq_ofDigits]
  constructor
  · intro h
    have hne := h.ne_nil
    have hdigits := h.isDigit hb
    obtain ⟨ds, hds, hn⟩ := h
    exact ⟨⟨hne, hdigits⟩, (hds.map_value hb).symm ▸ hn⟩
  · rintro ⟨⟨hne, hdigits⟩, hn⟩
    exact ⟨_, digits_map_value hb hne hdigits, hn⟩

theorem denotes_value {base : Nat} (hb : base ≤ 16) {cs : List Char} (hne : cs ≠ [])
    (h : ∀ c ∈ cs, Digit.isDigit base c) : Denotes base cs (value base cs) :=
  (denotes_iff hb).2 ⟨isNumeral_iff.2 ⟨hne, h⟩, rfl⟩

end Numeral

/-! ### Bytes of hexadecimal digits -/

namespace Hex

theorem pair?_of_isDigit {a b : Char} (ha : Digit.isDigit 16 a) (hb : Digit.isDigit 16 b) :
    pair? a b = some (UInt8.ofNat (Digit.value a * 16 + Digit.value b)) := by
  have hplus : a ≠ '+' := by
    rintro rfl
    cases ha
  unfold pair?
  rw [if_pos hb, if_neg hplus, if_pos ha]

/-- Up to four digits keep their number when they are filled up to four and put in upper case. -/
theorem value_padded {cs : List Char} (h : ∀ c ∈ cs, Digit.isDigit 16 c) (k : Nat) :
    Numeral.value 16 (List.replicate k '0' ++ cs.map Char.toUpper) = Numeral.value 16 cs := by
  have hupper : (cs.map Char.toUpper).map Digit.value = cs.map Digit.value := by
    rw [List.map_map]
    exact List.map_congr_left fun c hc => Digit.value_toUpper (h c hc)
  rw [Numeral.value_eq_ofDigits, Numeral.value_eq_ofDigits, List.map_append, hupper,
    List.map_replicate, List.reverse_append, List.reverse_replicate,
    show Digit.value '0' = 0 from rfl, Nat.ofDigits_append_replicate_zero]

theorem literal?_eq {s : String} {n : Nat} (hlen : s.toList.length ≤ 4)
    (h : Numeral.Denotes 16 s.toList n) : literal? s = some (LittleEndian.bytes 2 n) := by
  have hdigits := h.isDigit (by decide)
  obtain ⟨-, rfl⟩ := (Numeral.denotes_iff (by decide)).1 h
  have hpadded : ∀ c ∈ List.replicate (4 - s.toList.length) '0' ++ s.toList.map Char.toUpper,
      Digit.isDigit 16 c := by
    intro c hc
    rcases List.mem_append.1 hc with hc | hc
    · rw [List.eq_of_mem_replicate hc]
      decide
    · obtain ⟨d, hd, rfl⟩ := List.mem_map.1 hc
      exact Digit.isDigit_toUpper (hdigits d hd)
  unfold literal? swap?
  dsimp only
  rw [if_pos ⟨hlen, List.all_eq_true.2 hdigits⟩, ← value_padded hdigits (4 - s.toList.length)]
  have hfour := length_padded hlen
  generalize List.replicate (4 - s.toList.length) '0' ++ s.toList.map Char.toUpper = ds
    at hpadded hfour
  obtain ⟨a, b, c, d, rfl⟩ := List.length_eq_four.1 hfour
  have hab := pair?_of_isDigit (hpadded a (by simp)) (hpadded b (by simp))
  have hcd := pair?_of_isDigit (hpadded c (by simp)) (hpadded d (by simp))
  have ha := Digit.value_lt (hpadded a (by simp))
  have hb := Digit.value_lt (hpadded b (by simp))
  have hc := Digit.value_lt (hpadded c (by simp))
  have hd := Digit.value_lt (hpadded d (by simp))
  have hvalue : Numeral.value 16 [a, b, c, d] =
      (Digit.value a * 16 + Digit.value b) * 256 + (Digit.value c * 16 + Digit.value d) := by
    show (((0 * 16 + Digit.value a) * 16 + Digit.value b) * 16 + Digit.value c) * 16 +
      Digit.value d = _
    omega
  have hlow : UInt8.ofNat (Numeral.value 16 [a, b, c, d]) =
      UInt8.ofNat (Digit.value c * 16 + Digit.value d) := by
    rw [← UInt8.toNat_inj, UInt8.toNat_ofNat', UInt8.toNat_ofNat', hvalue]
    omega
  have hhigh : Numeral.value 16 [a, b, c, d] / 256 = Digit.value a * 16 + Digit.value b := by
    omega
  simp [bytes?, pairs?, hab, hcd, LittleEndian.bytes, hlow, hhigh]

end Hex

/-! ### Literals -/

namespace Literal

def base : Literal → Nat
  | decimal _ => 10
  | hex _ => 16

def Holds (n : Nat) : Literal → Prop
  | decimal v => v.toNat = n
  | hex ds => Numeral.Denotes 16 ds.toList n

/-- The two ways to write a number in an operand: decimal digits, or hexadecimal ones behind `0x`. -/
inductive Written : Nat → List Char → Nat → Prop
  | decimal {cs : List Char} {n : Nat} (h : Numeral.Denotes 10 cs n) : Written 10 cs n
  | hex {cs : List Char} {n : Nat} (h : Numeral.Denotes 16 cs n) : Written 16 ('0' :: 'x' :: cs) n

/-- Of more than four digits those are kept that are left without the zeros in front. -/
theorem shortHex?_of_denotes {cs : List Char} {n : Nat} (h : Numeral.Denotes 16 cs n) :
    (n < UInt16.size → ∃ ds, shortHex? cs = some ds ∧ Numeral.Denotes 16 ds n) ∧
      (UInt16.size ≤ n → shortHex? cs = none) := by
  have hdigits := h.isDigit (by decide)
  obtain ⟨-, rfl⟩ := (Numeral.denotes_iff (by decide)).1 h
  unfold shortHex?
  by_cases hlen : cs.length ≤ 4
  · have hlt := Numeral.value_lt_pow (by decide) hdigits
    have hpow : 16 ^ cs.length ≤ 16 ^ 4 := Nat.pow_le_pow_right (by decide) hlen
    rw [if_pos hlen]
    exact ⟨fun _ => ⟨cs, rfl, h⟩, fun hle =>
      absurd (Nat.lt_of_lt_of_le hlt hpow) (Nat.not_lt.2 hle)⟩
  · have hvalue := Numeral.value_dropWhile 16 cs
    have hrest : ∀ c ∈ cs.dropWhile (· == '0'), Digit.isDigit 16 c := fun c hc =>
      hdigits c ((List.dropWhile_sublist _).subset hc)
    have hhead := List.head?_dropWhile_not (· == '0') cs
    rw [if_neg hlen, ← hvalue]
    generalize cs.dropWhile (· == '0') = ds at hrest hhead
    cases ds with
    | nil =>
      have hdigit : ∀ c ∈ ['0'], Digit.isDigit 16 c := List.forall_mem_singleton.2 rfl
      have hzero := Numeral.denotes_value (by decide) (List.cons_ne_nil _ _) hdigit
      exact ⟨fun _ => ⟨['0'], rfl, hzero⟩, fun hle => absurd hle (by decide)⟩
    | cons d ds =>
      have hzero : d ≠ '0' := by simpa using hhead
      have hle : 16 ^ ds.length ≤ Numeral.value 16 (d :: ds) :=
        Numeral.pow_le_value (hrest d List.mem_cons_self) hzero
      have hlt := Numeral.value_lt_pow (by decide) hrest
      dsimp only
      by_cases hshort : (d :: ds).length ≤ 4
      · have hpow : 16 ^ (d :: ds).length ≤ 16 ^ 4 := Nat.pow_le_pow_right (by decide) hshort
        rw [if_pos hshort]
        have hkept := Numeral.denotes_value (by decide) (List.cons_ne_nil d ds) hrest
        exact ⟨fun _ => ⟨_, rfl, hkept⟩,
          fun hge => absurd (Nat.lt_of_lt_of_le hlt hpow) (Nat.not_lt.2 hge)⟩
      · have hpow : 16 ^ 4 ≤ 16 ^ ds.length :=
          Nat.pow_le_pow_right (by decide) (Nat.le_of_lt_succ (Nat.lt_of_not_le hshort))
        rw [if_neg hshort]
        exact ⟨fun hsmall => absurd (Nat.le_trans hpow hle) (Nat.not_le.2 hsmall), fun _ => rfl⟩

theorem read?_of_written {base n : Nat} {cs : List Char} (h : Written base cs n) (token : String) :
    (n < UInt16.size → ∃ l, read? token cs = some (.ok l) ∧ l.base = base ∧ l.Holds n) ∧
      (UInt16.size ≤ n → read? token cs = some (.error (.literalOverflow token 2))) := by
  cases h with
  | decimal h =>
    obtain ⟨hnumeral, rfl⟩ := (Numeral.denotes_iff (by decide)).1 h
    unfold read?
    dsimp only
    rw [show Numeral.isDecimal cs = true from hnumeral, if_pos rfl]
    refine ⟨fun hlt => ?_, fun hle => ?_⟩
    · rw [if_pos hlt]
      exact ⟨_, rfl, rfl, UInt16.toNat_ofNat_of_lt' hlt⟩
    · rw [if_neg (Nat.not_lt.2 hle)]
  | @hex ds n h =>
    have hhex : Numeral.hexDigits? ('0' :: 'x' :: ds) = some ds :=
      if_pos ((Numeral.denotes_iff (by decide)).1 h).1
    obtain ⟨hfits, hlarge⟩ := shortHex?_of_denotes h
    unfold read?
    dsimp only
    rw [show Numeral.isDecimal ('0' :: 'x' :: ds) = false from rfl, if_neg Bool.false_ne_true, hhex]
    refine ⟨fun hlt => ?_, fun hle => ?_⟩
    · obtain ⟨es, hes, hn⟩ := hfits hlt
      refine ⟨hex (String.ofList es), ?_, rfl, ?_⟩
      · rw [Option.map_some, hes]
        rfl
      · show Numeral.Denotes 16 (String.ofList es).toList n
        rwa [String.toList_ofList]
    · rw [Option.map_some, hlarge hle]
      rfl

theorem exists_written_of_read? {token : String} {cs : List Char} {l : Except Fault Literal}
    (h : read? token cs = some l) : ∃ base n, Written base cs n := by
  unfold read? at h
  dsimp only at h
  by_cases hdecimal : Numeral.isDecimal cs
  · exact ⟨10, _, .decimal ((Numeral.denotes_iff (by decide)).2 ⟨hdecimal, rfl⟩)⟩
  · rw [if_neg hdecimal] at h
    obtain ⟨ds, hds, -⟩ := Option.map_eq_some_iff.1 h
    have hnumeral := Numeral.isNumeral_of_hexDigits? hds
    unfold Numeral.hexDigits? at hds
    split at hds
    · split_ifs at hds
      cases hds
      exact ⟨16, _, .hex ((Numeral.denotes_iff (by decide)).2 ⟨hnumeral, rfl⟩)⟩
    · cases hds

/-- Whether characters spell a literal: they write its number, in its base, and it fits. -/
def Spelled (cs : List Char) (l : Literal) : Prop :=
  ∃ n < UInt16.size, Written l.base cs n ∧ l.Holds n

def Oversized (cs : List Char) : Prop :=
  ∃ base n, Written base cs n ∧ UInt16.size ≤ n

theorem spelled_of_read? {token : String} {cs : List Char} {l : Literal}
    (h : read? token cs = some (.ok l)) : Spelled cs l := by
  obtain ⟨base, n, hw⟩ := exists_written_of_read? h
  obtain ⟨hfits, hlarge⟩ := read?_of_written hw token
  rcases Nat.lt_or_ge n UInt16.size with hn | hn
  · obtain ⟨l', hl', rfl, hholds⟩ := hfits hn
    obtain rfl : l' = l := Except.ok.inj (Option.some.inj (hl'.symm.trans h))
    exact ⟨n, hn, hw, hholds⟩
  · cases (hlarge hn).symm.trans h

theorem oversized_of_read? {token : String} {cs : List Char} {f : Fault}
    (h : read? token cs = some (.error f)) : f = .literalOverflow token 2 ∧ Oversized cs := by
  obtain ⟨base, n, hw⟩ := exists_written_of_read? h
  obtain ⟨hfits, hlarge⟩ := read?_of_written hw token
  rcases Nat.lt_or_ge n UInt16.size with hn | hn
  · obtain ⟨l, hl, -⟩ := hfits hn
    cases hl.symm.trans h
  · cases (hlarge hn).symm.trans h
    exact ⟨rfl, base, n, hw, hn⟩

theorem bytes_of_holds {l : Literal} {n : Nat} (h : l.WellFormed) (hn : l.Holds n) :
    l.bytes = .ok (LittleEndian.bytes 2 n) := by
  cases l with
  | decimal v =>
    obtain rfl : v.toNat = n := hn
    rfl
  | hex ds =>
    show (Hex.literal? ds).elim _ _ = _
    rw [Hex.literal?_eq h.1 hn]
    rfl

end Literal

end SS16
