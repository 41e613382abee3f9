import SS16.Proofs.Source.Literals
import SS16.Proofs.Source.OperandWords

/-!
# SS16.Proofs.NumberSyntax — the texts that are numbers

A number is written as an optional minus sign, an optional mark of its base and digits of that base,
in either case, and its magnitude has 63 bits.  Main statements: `Numeral.splitBase_of_mark` (a mark
is told apart from digits), `Numeral.magnitude?_eq_some_iff` and `Numeral.integer?_iff_spelled`.
-/

namespace SS16

/-! ### Digits -/

namespace Digit

theorem isAlphanum_of_isDigit {base : Nat} (hb : base ≤ 16) {c : Char} (h : isDigit base c) :
    c.isAlphanum := by
  have hlower : ∀ d < 16, (Nat.digitChar d).isAlphanum := by decide
  have hupper : ∀ d < 16, (Nat.digitChar d).toUpper.isAlphanum := by decide
  have hd := Nat.lt_of_lt_of_le (value_lt h) hb
  rcases stands_value hb h with hc | hc
  · rw [hc]
    exact hlower _ hd
  · rw [hc]
    exact hupper _ hd

end Digit

namespace Numeral

/-! ### The grammar -/

/-- The marks of the bases; without one a number is decimal. -/
inductive Mark : List Char → Nat → Prop
  | binary : Mark ['0', 'b'] 2
  | octal : Mark ['0', 'o'] 8
  | hexadecimal : Mark ['0', 'x'] 16
  | decimal : Mark [] 10

/-- The ways to write a magnitude of 63 bits: a mark and digits of its base, the first of which
counts most. -/
inductive Magnitude : List Char → Nat → Prop
  | intro {mark cs : List Char} {base : Nat} {ds : List Nat} (hmark : Mark mark base)
    (hds : Digits base cs ds) (hmax : Nat.ofDigits base ds.reverse ≤ 2 ^ 63 - 1) :
    Magnitude (mark ++ cs) (Nat.ofDigits base ds.reverse)

/-- The ways to write an integer: a magnitude, or a minus sign and the magnitude of its opposite. -/
inductive Spelled : List Char → Int → Prop
  | positive {cs : List Char} {m : Nat} (h : Magnitude cs m) : Spelled cs m
  | negative {cs : List Char} {m : Nat} (h : Magnitude cs m) : Spelled ('-' :: cs) (-m)

theorem Mark.base_le {mark : List Char} {base : Nat} (h : Mark mark base) : base ≤ 16 := by
  cases h <;> decide

/-! ### What is read -/

theorem mark_splitBase (cs : List Char) :
    ∃ mark, Mark mark (splitBase cs).1 ∧ cs = mark ++ (splitBase cs).2 := by
  unfold splitBase
  split
  · exact ⟨_, .binary, rfl⟩
  · exact ⟨_, .octal, rfl⟩
  · exact ⟨_, .hexadecimal, rfl⟩
  · exact ⟨_, .decimal, rfl⟩

theorem splitBase_of_mark {mark cs : List Char} {base : Nat} (h : Mark mark base)
    (hcs : ∀ c ∈ cs, Digit.isDigit base c) : splitBase (mark ++ cs) = (base, cs) := by
  cases h with
  | binary | octal | hexadecimal => rfl
  | decimal =>
    rw [List.nil_append]
    unfold splitBase
    split
    · exact absurd (hcs 'b' (by simp)) (by decide)
    · exact absurd (hcs 'o' (by simp)) (by decide)
    · exact absurd (hcs 'x' (by simp)) (by decide)
    · rfl

theorem magnitude?_eq_some_iff {cs : List Char} {m : Nat} :
    magnitude? cs = some m ↔
      ∃ mark ds base, Mark mark base ∧ cs = mark ++ ds ∧ Denotes base ds m ∧ m ≤ maxMagnitude := by
  constructor
  · intro h
    obtain ⟨mark, hmark, hcs⟩ := mark_splitBase cs
    unfold magnitude? at h
    dsimp only at h
    split_ifs at h with hm
    cases h
    exact ⟨mark, _, _, hmark, hcs, (denotes_iff hmark.base_le).2 ⟨hm.1, rfl⟩, hm.2⟩
  · rintro ⟨mark, ds, base, hmark, rfl, hds, hmax⟩
    have hsplit := splitBase_of_mark hmark (hds.isDigit hmark.base_le)
    obtain ⟨hnumeral, rfl⟩ := (denotes_iff hmark.base_le).1 hds
    unfold magnitude?
    rw [hsplit]
    exact if_pos ⟨hnumeral, hmax⟩

theorem magnitude?_eq_some_iff_magnitude {cs : List Char} {m : Nat} :
    magnitude? cs = some m ↔ Magnitude cs m := by
  rw [magnitude?_eq_some_iff]
  constructor
  · rintro ⟨mark, cs, base, hmark, rfl, ⟨ds, hds, rfl⟩, hmax⟩
    exact .intro hmark hds hmax
  · rintro ⟨hmark, hds, hmax⟩
    exact ⟨_, _, _, hmark, rfl, ⟨_, hds, rfl⟩, hmax⟩

theorem Mark.isAlphanum {mark : List Char} {base : Nat} (h : Mark mark base) :
    ∀ c ∈ mark, c.isAlphanum :=
  List.all_eq_true.1 (by cases h <;> rfl)

theorem Magnitude.isAlphanum {cs : List Char} {m : Nat} (h : Magnitude cs m) :
    cs ≠ [] ∧ ∀ c ∈ cs, c.isAlphanum := by
  obtain ⟨hmark, hds, hmax⟩ := h
  have hdigits : Denotes _ _ _ := ⟨_, hds, rfl⟩
  refine ⟨fun h => hdigits.ne_nil (List.append_eq_nil_iff.1 h).2, fun c hc => ?_⟩
  rcases List.mem_append.1 hc with hc | hc
  · exact hmark.isAlphanum c hc
  · exact Digit.isAlphanum_of_isDigit hmark.base_le (hdigits.isDigit hmark.base_le c hc)

theorem integer?_eq_some_iff {s : String} {v : Int} : integer? s = some v ↔ Spelled s.toList v := by
  unfold integer?
  constructor
  · intro h
    split at h
    · rename_i cs hs
      rw [hs]
      cases hm : magnitude? cs with
      | none =>
        rw [hm] at h
        cases h
      | some m =>
        rw [hm] at h
        cases h
        exact .negative (magnitude?_eq_some_iff_magnitude.1 hm)
    · cases hm : magnitude? s.toList with
      | none =>
        rw [hm] at h
        cases h
      | some m =>
        rw [hm] at h
        cases h
        exact .positive (magnitude?_eq_some_iff_magnitude.1 hm)
  · intro h
    generalize s.toList = cs at h
    cases h with
    | positive h =>
      split
      · exact absurd (h.isAlphanum.2 '-' List.mem_cons_self) (by decide)
      · rw [magnitude?_eq_some_iff_magnitude.2 h]
        rfl
    | negative h =>
      show Option.map _ (bind (magnitude? _) _) = _
      rw [magnitude?_eq_some_iff_magnitude.2 h]
      rfl

/-- Numbers are read by the grammar: a text is read as an integer exactly if it spells that integer.
So all but a minus sign in front are letters and digits, of which there is at least one, and no name
is a number. -/
theorem integer?_iff_spelled (s : String) :
    (∀ v, integer? s = some v ↔ Spelled s.toList v) ∧
    ((integer? s).isSome → ∃ cs, (s.toList = cs ∨ s.toList = '-' :: cs) ∧ cs ≠ [] ∧
      ∀ c ∈ cs, c.isAlphanum) ∧
    (Identifier.isValid s → integer? s = none ∧ ∀ v, ¬ Spelled s.toList v) := by
  refine ⟨fun v => integer?_eq_some_iff, fun h => ?_, fun h => ?_⟩
  · obtain ⟨v, hv⟩ := Option.isSome_iff_exists.1 h
    have hspelled := integer?_eq_some_iff.1 hv
    generalize s.toList = cs at hspelled
    cases hspelled with
    | positive hm => exact ⟨_, .inl rfl, hm.isAlphanum⟩
    | negative hm => exact ⟨_, .inr rfl, hm.isAlphanum⟩
  · have hnone := integer?_of_isValid h
    refine ⟨hnone, fun v hv => ?_⟩
    cases hnone.symm.trans (integer?_eq_some_iff.2 hv)

example : Numeral.integer? "-0x7FFFffffFFFFffff" = some (-9223372036854775807) ∧
    Numeral.integer? "-0x8000000000000000" = none := by decide +kernel

end Numeral

end SS16
