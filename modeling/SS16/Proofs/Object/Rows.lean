import SS16.Object.Text
import SS16.Proofs.Source.Words
import Mathlib.Data.List.Induction
import Std.Data.String.ToNat

/-!
# SS16.Proofs.Object.Rows — the rows of the text format are read back

A row of the text format is made of cells, words without a `#`, and is read back as these cells,
whatever the widths of its columns.  Main statements: `SymbolTable.dumpEntry_inj`,
`Object.relocationLine_injective` and `Object.flatMap_words_byteRows`.
-/

namespace SS16

/-! ### Numbers -/

namespace Hex

@[simp] theorem length_digits (count n : Nat) : (digits count n).length = count := by
  induction count generalizing n with
  | zero => rfl
  | succ count ih => simp [digits, ih]

theorem exists_eq_digit_of_mem {count n : Nat} {c : Char} (h : c ∈ digits count n) :
    ∃ d < 16, c = digit d := by
  induction count generalizing n with
  | zero => cases h
  | succ count ih =>
    rcases List.mem_append.1 h with h | h
    · exact ih h
    · exact ⟨n % 16, Nat.mod_lt n (by decide), List.mem_singleton.1 h⟩

theorem isTail_of_mem_digits {count n : Nat} {c : Char} (h : c ∈ digits count n) :
    Identifier.isTail c := by
  have hall : ∀ d < 16, Identifier.isTail (digit d) := by decide
  obtain ⟨d, hd, rfl⟩ := exists_eq_digit_of_mem h
  exact hall d hd

theorem isDigit_of_mem_digits {count n : Nat} {c : Char} (h : c ∈ digits count n) :
    Digit.isDigit 16 c := by
  have hall : ∀ d < 16, Digit.isDigit 16 (digit d) := by decide
  obtain ⟨d, hd, rfl⟩ := exists_eq_digit_of_mem h
  exact hall d hd

theorem value_digits (count n : Nat) :
    Numeral.value 16 (digits count n) = n % Nat.pow 16 count := by
  have hall : ∀ d < 16, Digit.value (digit d) = d := by decide
  induction count generalizing n with
  | zero => exact (Nat.mod_one n).symm
  | succ count ih =>
    have hlast := hall (n % 16) (Nat.mod_lt n (by decide))
    unfold Numeral.value at ih
    unfold Numeral.value digits
    rw [List.foldl_append, ih, List.foldl_cons, List.foldl_nil, hlast]
    show _ = n % (Nat.pow 16 count * 16)
    rw [Nat.mul_comm (Nat.pow 16 count), Nat.mod_mul, Nat.mul_comm, Nat.add_comm]

theorem digits_inj {count m n : Nat} (hm : m < Nat.pow 16 count) (hn : n < Nat.pow 16 count)
    (h : digits count m = digits count n) : m = n := by
  have hvalue := congrArg (Numeral.value 16) h
  rwa [value_digits, value_digits, Nat.mod_eq_of_lt hm, Nat.mod_eq_of_lt hn] at hvalue

theorem byte_injective : Function.Injective byte := by
  intro b c h
  have hdigits := String.ofList_injective h
  exact UInt8.toNat_inj.1 (@digits_inj 2 _ _ b.toNat_lt c.toNat_lt hdigits)

theorem word_injective : Function.Injective word := by
  intro v w h
  have hdigits := String.ofList_injective h
  exact UInt16.toNat_inj.1 (@digits_inj 4 _ _ v.toNat_lt w.toNat_lt hdigits)

end Hex

/-! ### Cells -/

namespace Text

/-- Whether a text is one word without a `#`. -/
def IsCell (s : String) : Prop := IsWord s ∧ '#' ∉ s.toList

theorem isCell_of_isTail {s : String} (hne : s.toList ≠ [])
    (h : ∀ c ∈ s.toList, Identifier.isTail c) : IsCell s := by
  refine ⟨⟨hne, fun c hc => (Identifier.of_isTail (h c hc)).1⟩, fun hmem => ?_⟩
  exact absurd (h _ hmem) (by decide)

theorem isCell_of_isValid {s : String} (h : Identifier.isValid s) : IsCell s :=
  isCell_of_isTail (Identifier.ne_nil_of_valid h) fun _ hc => Identifier.isTail_of_mem h hc

theorem isCell_toString (n : Nat) : IsCell (toString n) := by
  rw [Nat.toString_eq_repr]
  refine isCell_of_isTail ?_ fun c hc => ?_
  · rw [Nat.toList_repr]
    exact Nat.toDigits_ne_nil
  · rw [Nat.toList_repr] at hc
    have hdigit := Nat.isDigit_of_mem_toDigits (by decide) (by decide) hc
    simp [Identifier.isTail, Char.isAlphanum, hdigit]

theorem isCell_digits (count n : Nat) : IsCell (String.ofList (Hex.digits (count + 1) n)) := by
  refine isCell_of_isTail ?_ fun c hc => ?_
  · rw [String.toList_ofList]
    exact List.ne_nil_of_length_eq_add_one (Hex.length_digits (count + 1) n)
  · rw [String.toList_ofList] at hc
    exact Hex.isTail_of_mem_digits hc

theorem isCell_byte (b : UInt8) : IsCell (Hex.byte b) := isCell_digits 1 b.toNat

theorem isCell_word (w : UInt16) : IsCell (Hex.word w) := isCell_digits 3 w.toNat

-- The quantifier is decided along the text, not over all characters.
instance (s : String) : Decidable (IsCell s) :=
  have : Decidable (∀ c ∈ s.toList, isSeparator c = false) := List.decidableBAll _ _
  inferInstanceAs (Decidable ((s.toList ≠ [] ∧ ∀ c ∈ s.toList, isSeparator c = false) ∧
    '#' ∉ s.toList))

theorem isCell_sectionName (k : Section) : IsCell k.name := by
  cases k <;> decide

theorem isCell_homeName (s : Symbol) : IsCell s.homeName := by
  unfold Symbol.homeName
  cases s.home with
  | none => decide
  | some k => exact isCell_sectionName k

theorem isCell_bindingName (b : Binding) : IsCell b.name := by
  cases b <;> decide

theorem isCell_relocationKindName (k : RelocationKind) : IsCell k.name := by
  cases k <;> decide

/-! ### Rows of cells -/

/-- A row that is read back as its cells, on one line and without a `#`. -/
structure IsRow (s : String) (cells : List String) : Prop where
  words : words s = cells
  plain : ∀ c ∈ s.toList, c ≠ '\n' ∧ c ≠ '#'

theorem IsCell.isRow {s : String} (h : IsCell s) : IsRow s [s] where
  words := words_of_isWord h.1
  plain c hc := by
    refine ⟨?_, ?_⟩
    · rintro rfl
      exact absurd (h.1.2 _ hc) (by decide)
    · rintro rfl
      exact h.2 hc

theorem IsRow.append {s t : String} {xs ys : List String} (hs : IsRow s xs) (ht : IsRow t ys) :
    IsRow (s ++ " " ++ t) (xs ++ ys) where
  words := by rw [words_append_space, hs.words, ht.words]
  plain c hc := by
    rw [String.toList_append, String.toList_append] at hc
    rcases List.mem_append.1 hc with hc | hc
    · rcases List.mem_append.1 hc with hc | hc
      · exact hs.plain c hc
      · obtain rfl := List.mem_singleton.1 (show c ∈ [' '] from hc)
        decide
    · exact ht.plain c hc

theorem isBlank_of_mem_fill {n : Nat} {c : Char} (h : c ∈ (Column.fill n ' ').toList) : c = ' ' := by
  unfold Column.fill at h
  rw [String.toList_ofList] at h
  exact List.eq_of_mem_replicate h

theorem IsRow.left {s : String} {cells : List String} (h : IsRow s cells) (width : Nat) :
    IsRow (Column.left width s) cells where
  words := by
    rw [← h.words]
    unfold Text.words Column.left
    rw [String.toList_append, wordsOf_append_right]
    intro c hc
    rw [isBlank_of_mem_fill hc]
    decide
  plain c hc := by
    unfold Column.left at hc
    rw [String.toList_append] at hc
    rcases List.mem_append.1 hc with hc | hc
    · exact h.plain c hc
    · rw [isBlank_of_mem_fill hc]
      decide

theorem IsCell.left {s : String} (h : IsCell s) (width : Nat) :
    IsRow (Column.left width s) [s] := h.isRow.left width

theorem IsCell.right {s : String} (h : IsCell s) (width : Nat) :
    IsRow (Column.right width s) [s] where
  words := by
    unfold Text.words Column.right
    rw [String.toList_append, wordsOf_append_left]
    · exact words_of_isWord h.1
    · intro c hc
      rw [isBlank_of_mem_fill hc]
      decide
  plain c hc := by
    unfold Column.right at hc
    rw [String.toList_append] at hc
    rcases List.mem_append.1 hc with hc | hc
    · rw [isBlank_of_mem_fill hc]
      decide
    · exact h.isRow.plain c hc

theorem isRow_intercalate {cells : List String} (h : ∀ s ∈ cells, IsCell s) :
    IsRow (String.intercalate " " cells) cells := by
  induction cells with
  | nil => exact ⟨rfl, fun c hc => by cases hc⟩
  | cons s cells ih =>
    have hs := (h s List.mem_cons_self).isRow
    have ih := ih fun t ht => h t (List.mem_cons_of_mem s ht)
    cases cells with
    | nil => exact hs
    | cons t cells =>
      rw [String.intercalate_cons_cons]
      exact hs.append ih

end Text

/-! ### The rows of the format -/

open Text

theorem Binding.name_inj {b c : Binding} : b.name = c.name ↔ b = c := by
  cases b <;> cases c <;> decide

theorem RelocationKind.name_inj {k l : RelocationKind} : k.name = l.name ↔ k = l := by
  cases k <;> cases l <;> decide

theorem Section.name_ne_und (k : Section) : k.name ≠ "UND" := by
  cases k <;> decide

theorem Symbol.home_eq_of_homeName {s r : Symbol} (h : s.homeName = r.homeName) :
    s.home = r.home := by
  unfold homeName at h
  cases hs : s.home with
  | none =>
    cases hr : r.home with
    | none => rfl
    | some j =>
      rw [hs, hr] at h
      exact absurd h.symm j.name_ne_und
  | some k =>
    cases hr : r.home with
    | none =>
      rw [hs, hr] at h
      exact absurd h k.name_ne_und
    | some j =>
      rw [hs, hr] at h
      exact congrArg some (Section.name_inj.1 h)

theorem toString_toNat_inj {v w : UInt16} (h : toString v.toNat = toString w.toNat) : v = w := by
  rw [Nat.toString_eq_repr, Nat.toString_eq_repr] at h
  exact UInt16.toNat_inj.1 (Nat.repr_injective h)

theorem SymbolTable.isRow_dumpRow {number name home offset binding : String} (h1 : IsCell number)
    (h2 : IsCell name) (h3 : IsCell home) (h4 : IsCell offset) (h5 : IsCell binding) :
    IsRow (dumpRow number name home offset binding) [number, name, home, offset, binding] :=
  ((((h1.right 4).append (h2.left 16)).append (h3.left 8)).append (h4.right 6)).append h5.isRow

theorem SymbolTable.isRow_dumpEntry {s : Symbol} (h : IsCell s.name) :
    IsRow (dumpEntry s)
      [toString s.number.toNat, s.name, s.homeName, Hex.word s.offset, s.binding.name] :=
  isRow_dumpRow (isCell_toString _) h (isCell_homeName s) (isCell_word s.offset)
    (isCell_bindingName s.binding)

theorem SymbolTable.dumpEntry_inj {s r : Symbol} (hs : IsCell s.name) (hr : IsCell r.name)
    (h : dumpEntry s = dumpEntry r) : s = r := by
  have hcells := (isRow_dumpEntry hs).words
  rw [h, (isRow_dumpEntry hr).words] at hcells
  simp only [List.cons.injEq, and_true] at hcells
  obtain ⟨hnumber, hname, hhome, hoffset, hbinding⟩ := hcells
  obtain ⟨name, home, offset, binding, number⟩ := s
  obtain ⟨name', home', offset', binding', number'⟩ := r
  obtain rfl : name' = name := hname
  obtain rfl : home' = home := Symbol.home_eq_of_homeName hhome
  obtain rfl : offset' = offset := Hex.word_injective hoffset
  obtain rfl : number' = number := toString_toNat_inj hnumber
  obtain rfl : binding' = binding := Binding.name_inj.1 hbinding
  rfl

namespace Object

theorem isRow_relocationRow {offset kind entry : String} (h1 : IsCell offset) (h2 : IsCell kind)
    (h3 : IsCell entry) : IsRow (relocationRow offset kind entry) [offset, kind, entry] :=
  ((h1.left 6).append (h2.left 6)).append h3.isRow

theorem isRow_relocationLine (r : Relocation) :
    IsRow (relocationLine r) [Hex.word r.offset, r.kind.name, toString r.entry.toNat] :=
  isRow_relocationRow (isCell_word _) (isCell_relocationKindName _) (isCell_toString _)

theorem relocationLine_injective : Function.Injective relocationLine := by
  intro r q h
  have hcells := (isRow_relocationLine r).words
  rw [h, (isRow_relocationLine q).words] at hcells
  simp only [List.cons.injEq, and_true] at hcells
  obtain ⟨hoffset, hkind, hentry⟩ := hcells
  obtain ⟨offset, kind, entry⟩ := r
  obtain ⟨offset', kind', entry'⟩ := q
  obtain rfl : offset' = offset := Hex.word_injective hoffset
  obtain rfl : kind' = kind := RelocationKind.name_inj.1 hkind
  obtain rfl : entry' = entry := toString_toNat_inj hentry
  rfl

theorem isRow_dump (bs : List UInt8) : IsRow (Hex.dump bs) (bs.map Hex.byte) :=
  isRow_intercalate fun s hs => by
    obtain ⟨b, -, rfl⟩ := List.mem_map.1 hs
    exact isCell_byte b

theorem flatten_byteRows {count : Nat} {bs : List UInt8} (h : bs.length ≤ count * rowWidth) :
    (byteRows count bs).flatten = bs := by
  induction count generalizing bs with
  | zero =>
    rw [Nat.zero_mul, Nat.le_zero, List.length_eq_zero_iff] at h
    rw [h]
    rfl
  | succ count ih =>
    unfold byteRows
    rw [List.flatten_cons, ih, List.take_append_drop]
    rw [List.length_drop, Nat.succ_mul] at *
    omega

/-- The rows of a section's bytes are read back as these bytes. -/
theorem flatMap_words_byteRows (bs : List UInt8) :
    ((byteRows ((bs.length + rowWidth - 1) / rowWidth) bs).map Hex.dump).flatMap words =
      bs.map Hex.byte := by
  have hrows : bs.length ≤ (bs.length + rowWidth - 1) / rowWidth * rowWidth := by
    unfold rowWidth
    omega
  have hwords : (fun row => words (Hex.dump row)) = List.map Hex.byte :=
    funext fun row => (isRow_dump row).words
  rw [List.flatMap_map, hwords, List.flatMap_def, ← List.map_flatten, flatten_byteRows hrows]

end Object

end SS16
