import SS16.Proofs.Results
import SS16.Proofs.Source.Words
import SS16.Source.Operand

/-!
# SS16.Proofs.Source.OperandWords — operands told apart by how they start

No name starts like a number or a mark, and each mark decides how an operand is read.  Main
statements: `Literal.read?_of_valid` (no name is a literal), `Operand.parse_name`,
`Operand.parse_address`, `Operand.parse_relative`, `Operand.parse_memoryAt` and
`Operand.parse_indexed`.
-/

namespace SS16

def Register.names : List String :=
  ["r0", "r1", "r2", "r3", "r4", "r5", "r6", "r7", "sp", "pc"]

/-! ### Names, numbers and registers -/

namespace Identifier

/-- The letters of names: those of ASCII, in either case, and the underscore. -/
def IsLetter (c : Char) : Prop := 'a' ≤ c ∧ c ≤ 'z' ∨ 'A' ≤ c ∧ c ≤ 'Z' ∨ c = '_'

/-- The forms of a name: a letter, and behind it letters and digits. -/
inductive Spelled : List Char → Prop
  | intro {c : Char} {cs : List Char} (hc : IsLetter c)
    (hcs : ∀ x ∈ cs, IsLetter x ∨ '0' ≤ x ∧ x ≤ '9') : Spelled (c :: cs)

theorem isHead_iff {c : Char} : isHead c ↔ IsLetter c := by
  have hupper : c.isUpper ↔ 'A' ≤ c ∧ c ≤ 'Z' := decide_eq_true_iff
  have hlower : c.isLower ↔ 'a' ≤ c ∧ c ≤ 'z' :=
    Bool.and_eq_true_iff.trans (and_congr decide_eq_true_iff decide_eq_true_iff)
  show (c.isUpper || c.isLower || c == '_') = true ↔ _
  rw [Bool.or_eq_true, Bool.or_eq_true, hupper, hlower, beq_iff_eq, or_assoc]
  exact or_left_comm

theorem isTail_iff {c : Char} : isTail c ↔ IsLetter c ∨ '0' ≤ c ∧ c ≤ '9' := by
  rw [← isHead_iff]
  simp only [isTail, isHead, Char.isAlphanum, Char.isDigit, Char.le_def, Bool.or_eq_true,
    Bool.and_eq_true, decide_eq_true_eq, ge_iff_le]
  exact or_right_comm

theorem valid_iff {cs : List Char} : valid cs ↔ Spelled cs := by
  constructor
  · intro h
    cases cs with
    | nil => cases h
    | cons c cs =>
      unfold valid at h
      rw [Bool.and_eq_true, List.all_eq_true] at h
      exact .intro (isHead_iff.1 h.1) fun x hx => isTail_iff.1 (h.2 x hx)
  · rintro ⟨hc, hcs⟩
    unfold valid
    rw [Bool.and_eq_true, List.all_eq_true]
    exact ⟨isHead_iff.2 hc, fun x hx => isTail_iff.2 (hcs x hx)⟩

theorem isValid_ofList (cs : List Char) : isValid (String.ofList cs) = valid cs := by
  rw [isValid, String.toList_ofList]

theorem isHead_of_valid {c : Char} {cs : List Char} (h : valid (c :: cs)) : isHead c := by
  unfold valid at h
  rw [Bool.and_eq_true] at h
  exact h.1

/-- No name starts like a number, an operand with a mark or a negative number. -/
theorem of_isHead {c : Char} (h : isHead c) :
    Digit.isDigit 10 c = false ∧ c ≠ '-' ∧ c ≠ '&' ∧ c ≠ '$' ∧ c ≠ '*' := by
  have hlt : c.toNat < 128 := by
    rcases Bool.or_eq_true_iff.1 h with h | h
    · have halpha : c.isAlphanum := by
        unfold Char.isAlphanum
        rw [h]
        rfl
      exact toNat_lt_of_isAlphanum halpha
    · rw [eq_of_beq h]
      decide
  have hall : ∀ n < 128, isHead (Char.ofNat n) → Digit.isDigit 10 (Char.ofNat n) = false ∧
      Char.ofNat n ≠ '-' ∧ Char.ofNat n ≠ '&' ∧ Char.ofNat n ≠ '$' ∧ Char.ofNat n ≠ '*' := by
    decide +kernel
  have hc := hall c.toNat hlt
  rw [Char.ofNat_toNat] at hc
  exact hc h

end Identifier

theorem Numeral.isNumeral_cons {c : Char} {cs : List Char} (h : Digit.isDigit 10 c = false) :
    isNumeral 10 (c :: cs) = false := by
  unfold isNumeral
  rw [List.all_cons, h]
  rfl

theorem Digit.ne_zero_of_isDigit {c : Char} (h : isDigit 10 c = false) : c ≠ '0' := by
  rintro rfl
  exact absurd h (by decide)

theorem Literal.read?_eq_none {c : Char} (h : Digit.isDigit 10 c = false) (token : String)
    (cs : List Char) : read? token (c :: cs) = none := by
  have hhex : Numeral.hexDigits? (c :: cs) = none := by
    unfold Numeral.hexDigits?
    split
    · rename_i ds he
      exact absurd (List.cons.inj he).1 (Digit.ne_zero_of_isDigit h)
    · rfl
  unfold read? Numeral.isDecimal
  rw [Numeral.isNumeral_cons h, hhex]
  rfl

theorem Literal.read?_of_valid {cs : List Char} (h : Identifier.valid cs) (token : String) :
    read? token cs = none := by
  cases cs with
  | nil => cases h
  | cons c cs =>
    exact read?_eq_none (Identifier.of_isHead (Identifier.isHead_of_valid h)).1 token cs

theorem Numeral.integer?_of_isValid {n : String} (h : Identifier.isValid n) : integer? n = none := by
  unfold Identifier.isValid at h
  cases hn : n.toList with
  | nil =>
    rw [hn] at h
    cases h
  | cons c cs =>
    rw [hn] at h
    obtain ⟨hdigit, hminus, -⟩ := Identifier.of_isHead (Identifier.isHead_of_valid h)
    have hzero := Digit.ne_zero_of_isDigit hdigit
    have hbase : splitBase (c :: cs) = (10, c :: cs) := by
      unfold splitBase
      split
      · rename_i he
        exact absurd (List.cons.inj he).1 hzero
      · rename_i he
        exact absurd (List.cons.inj he).1 hzero
      · rename_i he
        exact absurd (List.cons.inj he).1 hzero
      · rfl
    have hmagnitude : magnitude? (c :: cs) = none := by
      unfold magnitude?
      rw [hbase]
      dsimp only
      rw [if_neg (by rw [isNumeral_cons hdigit]; simp)]
    unfold integer?
    rw [hn]
    split
    · rename_i he
      exact absurd (List.cons.inj he).1 hminus
    · rw [hmagnitude]
      rfl

namespace Register

def IsIndex (d : Char) : Prop := '0' ≤ d ∧ d ≤ '7'

/-- The numbered registers.  The stack pointer and the program counter are the last two. -/
def digits : List (Char × Register) :=
  [('0', r0), ('1', r1), ('2', r2), ('3', r3), ('4', r4), ('5', r5), ('6', sp), ('7', pc)]

theorem IsIndex.forall {P : Char → Prop} (h : ∀ n < 56, '0' ≤ Char.ofNat n → P (Char.ofNat n))
    {d : Char} (hd : IsIndex d) : P d := by
  have hlt : d.toNat < 56 := Nat.lt_succ_of_le (UInt32.le_iff_toNat_le.1 hd.2)
  have hall := h d.toNat hlt
  rw [Char.ofNat_toNat] at hall
  exact hall hd.1

theorem mem_digits_iff {d : Char} {r : Register} :
    (d, r) ∈ digits ↔ IsIndex d ∧ ofCode (d.toNat - '0'.toNat) = r := by
  constructor
  · intro h
    have hall : ∀ x ∈ digits, ('0' ≤ x.1 ∧ x.1 ≤ '7') ∧ ofCode (x.1.toNat - '0'.toNat) = x.2 := by
      decide
    exact hall _ h
  · rintro ⟨hd, rfl⟩
    exact IsIndex.forall (P := fun d => (d, ofCode (d.toNat - '0'.toNat)) ∈ digits)
      (by decide +kernel) hd

theorem mem_names_of_isIndex {d : Char} (h : IsIndex d) : String.ofList ['r', d] ∈ names :=
  IsIndex.forall (P := fun d => String.ofList ['r', d] ∈ names) (by decide +kernel) h

theorem numbered?_of_isIndex {d : Char} (h : IsIndex d) :
    numbered? (String.ofList ['r', d]) = some (ofCode (d.toNat - '0'.toNat)) := by
  unfold numbered?
  rw [String.toList_ofList]
  exact if_pos h

theorem numbered?_eq_some {s : String} {r : Register} (h : numbered? s = some r) :
    ∃ d, IsIndex d ∧ s.toList = ['r', d] := by
  unfold numbered? at h
  split at h
  · rename_i d hs
    split_ifs at h with hd
    exact ⟨d, hd, hs⟩
  · cases h

theorem mem_names_of_numbered? {s : String} {r : Register} (h : numbered? s = some r) :
    s ∈ names := by
  obtain ⟨d, hd, hs⟩ := numbered?_eq_some h
  rw [← String.ofList_toList (s := s), hs]
  exact mem_names_of_isIndex hd

theorem mem_names_of_pointer? {s : String} {r : Register} (h : pointer? s = some r) :
    s ∈ names := by
  rw [← String.ofList_toList (s := s)]
  unfold pointer? at h
  split at h
  · rename_i hs
    rw [hs]
    decide
  · rename_i hs
    rw [hs]
    decide
  · cases h

theorem isValid_of_mem_names {s : String} (h : s ∈ names) : Identifier.isValid s := by
  have hall : ∀ s ∈ names, Identifier.isValid s := by decide +kernel
  exact hall s h

end Register

/-! ### Operands -/

namespace Operand

variable {token : String} {c d : Char} {cs : List Char}

/-- A name is read as such, unless a register is called so. -/
theorem parse_name {n : String} (hn : Identifier.isValid n) (hr : n ∉ Register.names) :
    parse n = .ok (.memory n) := by
  have hnumbered : Register.numbered? n = none :=
    Option.eq_none_iff_forall_ne_some.2 fun r h => hr (Register.mem_names_of_numbered? h)
  have hpointer : Register.pointer? n = none :=
    Option.eq_none_iff_forall_ne_some.2 fun r h => hr (Register.mem_names_of_pointer? h)
  unfold parse
  rw [Literal.read?_of_valid hn, hnumbered, hpointer]
  exact if_pos hn

theorem parse_of_mark (hc : Digit.isDigit 10 c = false) (hr : c ≠ 'r') (hs : c ≠ 's')
    (hp : c ≠ 'p') (hhead : Identifier.isHead c = false) (h : token.toList = c :: cs) :
    parse token = parseMarked token (c :: cs) := by
  have hnumbered : Register.numbered? token = none := by
    unfold Register.numbered?
    rw [h]
    split
    · rename_i he
      exact absurd (List.cons.inj he).1 hr
    · rfl
  have hpointer : Register.pointer? token = none := by
    unfold Register.pointer?
    rw [h]
    split
    · rename_i he
      exact absurd (List.cons.inj he).1 hs
    · rename_i he
      exact absurd (List.cons.inj he).1 hp
    · rfl
  have hvalid : Identifier.isValid token = false := by
    unfold Identifier.isValid Identifier.valid
    rw [h]
    dsimp only
    rw [hhead]
    rfl
  unfold parse
  rw [h, Literal.read?_eq_none hc, hnumbered, hpointer]
  dsimp only
  rw [if_neg (by simp [hvalid])]

theorem parse_address (h : token.toList = '&' :: cs) :
    parse token = if Identifier.valid cs then .ok (address (String.ofList cs))
      else .error (.unrecognizedOperand token) :=
  parse_of_mark (by decide) (by decide) (by decide) (by decide) (by decide) h

theorem parse_relative (h : token.toList = '$' :: cs) :
    parse token = if Identifier.valid cs then .ok (relative (String.ofList cs))
      else .error (.unrecognizedOperand token) :=
  parse_of_mark (by decide) (by decide) (by decide) (by decide) (by decide) h

theorem parse_memoryAt (h : token.toList = '*' :: cs) :
    parse token = (Literal.read? token cs).elim (.error (.unrecognizedOperand token))
      fun l => l.map memoryAt := by
  rw [parse_of_mark (by decide) (by decide) (by decide) (by decide) (by decide) h]
  cases hl : Literal.read? token cs <;> simp only [parseMarked, hl, Option.elim]

theorem parse_indexed (hd : Register.IsIndex d) (h : token.toList = 'r' :: d :: '[' :: cs) :
    parse token =
      if cs.getLast? = some ']' then
        (displacement token cs.dropLast).map (indexed (Register.ofCode (d.toNat - '0'.toNat)))
      else .error (.unrecognizedOperand token) := by
  have hne : d ≠ '[' := by
    rintro rfl
    exact absurd hd.2 (by decide)
  have hnumbered : Register.numbered? token = none := by
    unfold Register.numbered?
    rw [h]
    rfl
  have hpointer : Register.pointer? token = none := by
    unfold Register.pointer?
    rw [h]
    rfl
  have hvalid : Identifier.isValid token = false := by
    unfold Identifier.isValid Identifier.valid
    rw [h]
    dsimp only
    rw [List.all_cons, List.all_cons, show Identifier.isTail '[' = false by decide]
    simp
  have htake : ('r' :: d :: '[' :: cs).takeWhile (· != '[') = ['r', d] := by
    simp [hne]
  have hdrop : ('r' :: d :: '[' :: cs).dropWhile (· != '[') = '[' :: cs := by
    simp [hne]
  unfold parse
  rw [h, Literal.read?_eq_none (by decide), hnumbered, hpointer]
  dsimp only
  rw [if_neg (by simp [hvalid])]
  show parseIndexed token ('r' :: d :: '[' :: cs) = _
  unfold parseIndexed
  rw [htake, hdrop, Register.numbered?_of_isIndex hd]

end Operand

end SS16
