import SS16.Proofs.Object.Rows
import SS16.Proofs.Source.Literals

/-!
# SS16.Proofs.DigitPairs — bytes are read back from their digits

A byte is printed as two digits and read from two, in either case, so reading and printing undo each
other.  One more spelling is read: a plus sign in front of a digit passes for a zero.  Main
statements: `Hex.pairs?_eq_some_iff` (the texts that are read, with their bytes),
`Hex.bytes?_inverts_packed` and `Hex.literal?_eq_some_iff` (no plus sign gets into a literal).
-/

namespace SS16.Hex

/-! ### One byte -/

/-- Whether a character can be the first of a pair: a digit, or a plus sign. -/
def Leads (c : Char) : Prop := Digit.isDigit 16 c ∨ c = '+'

/-- How a character is printed once it has been read as a digit: in upper case, a plus sign as a
zero. -/
def printed (c : Char) : Char := if c = '+' then '0' else c.toUpper

theorem ne_plus_of_isDigit {c : Char} (h : Digit.isDigit 16 c) : c ≠ '+' := by
  rintro rfl
  exact absurd h (by decide)

theorem printed_of_ne {c : Char} (h : c ≠ '+') : printed c = c.toUpper := if_neg h

theorem Leads.digit_value {c : Char} (h : Leads c) :
    Digit.value c < 16 ∧ digit (Digit.value c) = printed c := by
  rcases h with h | rfl
  · have hdigit : digit (Digit.value c) = c.toUpper :=
      Digit.forall_isDigit (P := fun c => digit (Digit.value c) = c.toUpper) (by decide +kernel) h
    exact ⟨Digit.value_lt h, hdigit.trans (printed_of_ne (ne_plus_of_isDigit h)).symm⟩
  · decide

theorem pair?_of_leads {a b : Char} (ha : Leads a) (hb : Digit.isDigit 16 b) :
    pair? a b = some (UInt8.ofNat (Digit.value a * 16 + Digit.value b)) := by
  rcases ha with ha | rfl
  · exact pair?_of_isDigit ha hb
  · unfold pair?
    rw [if_pos hb, if_pos rfl, show Digit.value '+' = 0 from rfl, Nat.zero_mul, Nat.zero_add]

theorem leads_of_pair? {a b : Char} {x : UInt8} (h : pair? a b = some x) :
    Leads a ∧ Digit.isDigit 16 b := by
  unfold pair? at h
  split_ifs at h with hb hplus ha
  · exact ⟨.inr hplus, hb⟩
  · exact ⟨.inl ha, hb⟩

theorem digits_pair {a b : Char} (ha : Leads a) (hb : Digit.isDigit 16 b) :
    digits 2 (UInt8.ofNat (Digit.value a * 16 + Digit.value b)).toNat = [printed a, printed b] := by
  obtain ⟨halt, ha⟩ := ha.digit_value
  obtain ⟨hblt, hb⟩ := Leads.digit_value (.inl hb)
  have hhigh : (Digit.value a * 16 + Digit.value b) % 2 ^ 8 / 16 % 16 = Digit.value a := by omega
  have hlow : (Digit.value a * 16 + Digit.value b) % 2 ^ 8 % 16 = Digit.value b := by omega
  rw [UInt8.toNat_ofNat', ← ha, ← hb]
  show [digit _, digit _] = _
  rw [hhigh, hlow]

theorem pair?_eq_some_iff {a b : Char} {x : UInt8} :
    pair? a b = some x ↔
      Leads a ∧ Digit.isDigit 16 b ∧ digits 2 x.toNat = [printed a, printed b] := by
  constructor
  · intro h
    obtain ⟨ha, hb⟩ := leads_of_pair? h
    rw [pair?_of_leads ha hb] at h
    cases h
    exact ⟨ha, hb, digits_pair ha hb⟩
  · rintro ⟨ha, hb, hx⟩
    rw [pair?_of_leads ha hb]
    rw [← digits_pair ha hb] at hx
    exact congrArg some (byte_injective (congrArg String.ofList hx.symm))

/-! ### All bytes -/

/-- Whether a character is the digit of a number below 16, in either case. -/
def IsDigit (c : Char) : Prop := ∃ d < 16, Digit.Stands c d

theorem isDigit_iff {c : Char} : IsDigit c ↔ Digit.isDigit 16 c :=
  (Digit.isDigit_iff (Nat.le_refl 16)).symm

/-- Characters that go in pairs: digits, and plus signs in the first places of pairs only. -/
structure Paired (cs : List Char) : Prop where
  even : cs.length % 2 = 0
  place : ∀ i c, cs[i]? = some c → IsDigit c ∨ c = '+' ∧ i % 2 = 0

theorem paired_nil : Paired [] := ⟨rfl, by simp⟩

theorem not_paired_singleton (c : Char) : ¬ Paired [c] := fun h => absurd h.even (by simp)

theorem paired_cons_cons {a b : Char} {cs : List Char} :
    Paired (a :: b :: cs) ↔ Leads a ∧ Digit.isDigit 16 b ∧ Paired cs := by
  have hlength : (a :: b :: cs).length % 2 = cs.length % 2 := Nat.add_mod_right cs.length 2
  constructor
  · rintro ⟨heven, hplace⟩
    have hb : IsDigit b := (hplace 1 b rfl).resolve_right fun h => absurd h.2 (by decide)
    refine ⟨(hplace 0 a rfl).imp isDigit_iff.1 And.left, isDigit_iff.1 hb, hlength ▸ heven,
      fun i c hc => ?_⟩
    have hi := hplace (i + 2) c hc
    rwa [Nat.add_mod_right] at hi
  · rintro ⟨ha, hb, heven, hplace⟩
    refine ⟨hlength.trans heven, fun i c hc => ?_⟩
    match i, hc with
    | 0, hc =>
      cases hc
      exact ha.imp isDigit_iff.2 fun h => ⟨h, rfl⟩
    | 1, hc =>
      cases hc
      exact .inl (isDigit_iff.2 hb)
    | i + 2, hc =>
      rw [Nat.add_mod_right]
      exact hplace i c hc

theorem paired_and_not_mem_iff {cs : List Char} :
    Paired cs ∧ '+' ∉ cs ↔ cs.length % 2 = 0 ∧ ∀ c ∈ cs, IsDigit c := by
  constructor
  · rintro ⟨⟨heven, hplace⟩, hplus⟩
    refine ⟨heven, fun c hc => ?_⟩
    obtain ⟨i, hi⟩ := List.mem_iff_getElem?.1 hc
    exact (hplace i c hi).resolve_right fun h => hplus (h.1 ▸ hc)
  · rintro ⟨heven, hdigits⟩
    exact ⟨⟨heven, fun i c hi => .inl (hdigits c (List.mem_of_getElem? hi))⟩,
      fun hplus => ne_plus_of_isDigit (isDigit_iff.1 (hdigits _ hplus)) rfl⟩

/-- Characters are read as bytes exactly if they go in pairs and the bytes are printed as they are,
but for plus signs and the case of letters. -/
theorem pairs?_eq_some_iff {cs : List Char} {bs : List UInt8} :
    pairs? cs = some bs ↔
      Paired cs ∧ bs.flatMap (fun b => digits 2 b.toNat) = cs.map printed := by
  fun_induction pairs? cs generalizing bs with
  | case1 =>
    cases bs with
    | nil => simp [paired_nil]
    | cons x xs => simp [digits]
  | case2 c => simp [not_paired_singleton]
  | case3 a b cs ih =>
    simp only [Option.bind_eq_bind, Option.bind_eq_some_iff, Option.pure_def, Option.some.injEq,
      pair?_eq_some_iff, ih, paired_cons_cons, List.map_cons]
    constructor
    · rintro ⟨x, ⟨ha, hb, hx⟩, xs, ⟨hcs, hxs⟩, rfl⟩
      refine ⟨⟨ha, hb, hcs⟩, ?_⟩
      rw [List.flatMap_cons, hx, hxs]
      rfl
    · rintro ⟨⟨ha, hb, hcs⟩, h⟩
      cases bs with
      | nil => cases h
      | cons x xs =>
        -- the first two digits are those of the first byte, as each byte has two
        have happend : digits 2 x.toNat ++ xs.flatMap (fun b => digits 2 b.toNat) =
            [printed a, printed b] ++ cs.map printed := h
        obtain ⟨hx, hxs⟩ := List.append_inj happend (length_digits 2 _)
        exact ⟨x, ⟨ha, hb, hx⟩, xs, ⟨hcs, hxs⟩, rfl⟩

theorem Paired.exists_pairs? {cs : List Char} (h : Paired cs) : ∃ bs, pairs? cs = some bs := by
  fun_induction pairs? cs with
  | case1 => exact ⟨[], rfl⟩
  | case2 c => exact absurd h (not_paired_singleton c)
  | case3 a b cs ih =>
    obtain ⟨ha, hb, hcs⟩ := paired_cons_cons.1 h
    obtain ⟨xs, hxs⟩ := ih hcs
    rw [pair?_of_leads ha hb, hxs]
    exact ⟨_, rfl⟩

/-! ### The text of bytes -/

/-- The text of bytes without the blanks between them. -/
def packed (bs : List UInt8) : String := String.ofList ((dump bs).toList.filter (· ≠ ' '))

theorem filter_digits (count n : Nat) : (digits count n).filter (· ≠ ' ') = digits count n := by
  refine List.filter_eq_self.2 fun c hc => decide_eq_true ?_
  rintro rfl
  exact absurd (isDigit_of_mem_digits hc) (by decide)

theorem toList_packed (bs : List UInt8) :
    (packed bs).toList = bs.flatMap fun b => digits 2 b.toNat := by
  have hbyte : ∀ b, (byte b).toList.filter (· ≠ ' ') = digits 2 b.toNat := fun b => by
    unfold byte
    rw [String.toList_ofList, filter_digits]
  unfold packed dump
  rw [String.toList_ofList]
  induction bs with
  | nil => rfl
  | cons b bs ih =>
    cases bs with
    | nil =>
      rw [List.flatMap_singleton]
      exact hbyte b
    | cons c bs =>
      rw [List.map_cons, List.map_cons, String.intercalate_cons_cons, String.toList_append,
        String.toList_append, List.filter_append, List.filter_append, ← List.map_cons, ih, hbyte,
        List.flatMap_cons]
      rfl

theorem of_mem_packed {bs : List UInt8} {c : Char} (h : c ∈ (packed bs).toList) :
    Digit.isDigit 16 c ∧ printed c = c := by
  have hall : ∀ d < 16, printed (digit d) = digit d := by decide
  rw [toList_packed] at h
  obtain ⟨b, -, hc⟩ := List.mem_flatMap.1 h
  refine ⟨isDigit_of_mem_digits hc, ?_⟩
  obtain ⟨d, hd, rfl⟩ := exists_eq_digit_of_mem hc
  exact hall d hd

theorem map_printed_of_forall {cs : List Char} (h : ∀ c ∈ cs, printed c = c) :
    cs.map printed = cs := by
  have hid : cs.map printed = cs.map id := List.map_congr_left h
  rwa [List.map_id] at hid

theorem paired_packed (bs : List UInt8) : Paired (packed bs).toList := by
  have heven : (packed bs).toList.length % 2 = 0 := by
    rw [toList_packed]
    simp [List.length_flatMap]
  exact (paired_and_not_mem_iff.2 ⟨heven, fun _ hc => isDigit_iff.2 (of_mem_packed hc).1⟩).1

variable {s : String} {bs : List UInt8}

theorem bytes?_eq_some_iff :
    bytes? s = some bs ↔ Paired s.toList ∧ (packed bs).toList = s.toList.map printed := by
  rw [toList_packed]
  exact pairs?_eq_some_iff

theorem bytes?_packed (bs : List UInt8) : bytes? (packed bs) = some bs := by
  have hprinted := map_printed_of_forall fun c (hc : c ∈ (packed bs).toList) => (of_mem_packed hc).2
  exact bytes?_eq_some_iff.2 ⟨paired_packed bs, hprinted.symm⟩

theorem isSome_bytes?_iff : (bytes? s).isSome ↔ Paired s.toList := by
  rw [Option.isSome_iff_exists]
  constructor
  · rintro ⟨bs, h⟩
    exact (bytes?_eq_some_iff.1 h).1
  · exact Paired.exists_pairs?

/-- A text is that of its bytes, but for the case of letters, unless it has plus signs. -/
theorem toUpper_eq_packed_iff (h : bytes? s = some bs) :
    s.toUpper = packed bs ↔ '+' ∉ s.toList := by
  have hupper : s.toUpper.toList = s.toList.map Char.toUpper := String.toList_map
  constructor
  · intro heq hplus
    have hmem : '+' ∈ s.toUpper.toList := hupper ▸ List.mem_map_of_mem (f := Char.toUpper) hplus
    rw [heq] at hmem
    exact ne_plus_of_isDigit (of_mem_packed hmem).1 rfl
  · intro hplus
    rw [← String.toList_inj, hupper, (bytes?_eq_some_iff.1 h).2]
    refine List.map_congr_left fun c hc => (printed_of_ne ?_).symm
    rintro rfl
    exact hplus hc

/-- Reading and printing bytes undo each other.  A text is read exactly if it is made of pairs of
digits, where a plus sign passes for a zero in the first place of a pair.  So a text without plus
signs is read exactly if it is an even number of digits, and these texts alone are printed again as
they were, but for the case of letters.  Whatever is printed is read back. -/
theorem bytes?_inverts_packed (s : String) :
    ((bytes? s).isSome ↔ Paired s.toList) ∧
    ((bytes? s).isSome ∧ '+' ∉ s.toList ↔
      s.length % 2 = 0 ∧ ∀ c ∈ s.toList, IsDigit c) ∧
    (∀ bs, bytes? s = some bs →
      (packed bs).toList = s.toList.map printed ∧ (s.toUpper = packed bs ↔ '+' ∉ s.toList)) ∧
    ∀ bs, bytes? (packed bs) = some bs := by
  refine ⟨isSome_bytes?_iff, ?_, fun bs h => ?_, bytes?_packed⟩
  · rw [isSome_bytes?_iff, paired_and_not_mem_iff, String.length_toList]
  · exact ⟨(bytes?_eq_some_iff.1 h).2, toUpper_eq_packed_iff h⟩

theorem bytes?_inverts_packed_sign_and_case :
    bytes? "+1aF" = some [0x01, 0xAF] ∧ "+1aF".toUpper ≠ packed [0x01, 0xAF] ∧
    bytes? "01aF" = some [0x01, 0xAF] ∧ "01aF".toUpper = packed [0x01, 0xAF] := by
  have hsign : bytes? "+1aF" = some [0x01, 0xAF] := by decide +kernel
  have hdigits : bytes? "01aF" = some [0x01, 0xAF] := by decide +kernel
  obtain ⟨-, -, hprinted, -⟩ := bytes?_inverts_packed "+1aF"
  obtain ⟨-, -, hprinted', -⟩ := bytes?_inverts_packed "01aF"
  refine ⟨hsign, fun h => ?_, hdigits, (hprinted' _ hdigits).2.2 (by decide)⟩
  exact (hprinted _ hsign).2.1 h (by decide)

/-! ### Literals -/

theorem printed_of_mem_swap? {t : String} (h : swap? s = some t) :
    ∀ c ∈ t.toList, printed c = c := by
  unfold swap? at h
  dsimp only at h
  split_ifs at h with hs
  cases h
  intro c hc
  rw [String.toList_ofList] at hc
  have hmem : c ∈ List.replicate (4 - s.toList.length) '0' ++ s.toList.map Char.toUpper :=
    (List.mem_append.1 hc).elim List.mem_of_mem_drop List.mem_of_mem_take
  rcases List.mem_append.1 hmem with hc | hc
  · rw [List.eq_of_mem_replicate hc]
    rfl
  · obtain ⟨d, hd, rfl⟩ := List.mem_map.1 hc
    exact Digit.forall_isDigit (P := fun c => printed c.toUpper = c.toUpper) (by decide +kernel)
      (List.all_eq_true.1 hs.2 d hd)

/-- Only digits get as far as the bytes of a literal: its digits, swapped, are the text of these
bytes. -/
theorem literal?_eq_some_iff : literal? s = some bs ↔ swap? s = some (packed bs) := by
  unfold literal?
  rw [Option.bind_eq_bind, Option.bind_eq_some_iff]
  constructor
  · rintro ⟨t, ht, hbs⟩
    have hprinted := map_printed_of_forall (printed_of_mem_swap? ht)
    rw [← (bytes?_eq_some_iff.1 hbs).2] at hprinted
    rw [ht, String.toList_inj.1 hprinted]
  · intro h
    exact ⟨_, h, bytes?_packed bs⟩

end SS16.Hex
