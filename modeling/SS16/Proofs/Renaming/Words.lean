import SS16.Proofs.OperandGrammar
import SS16.Source.Statement

/-!
# SS16.Proofs.Renaming.Words — other names in the words of a row

A renaming gives names other names, different names different ones, and leaves the names of registers
alone.  In the words of a row it is applied to labels, to what is exported or laid down by name, and
to the symbols of operands, and each word is read as before but for its name.  Main statements:
`Renaming.ident_injective` and `Renaming.parse_operandWord`.
-/

namespace SS16

/-- Other names for names. -/
structure Renaming where
  name : String → String
  isValid_name : ∀ n, Identifier.isValid n → Identifier.isValid (name n)
  name_inj : ∀ m n, Identifier.isValid m → Identifier.isValid n → name m = name n → m = n
  name_register : ∀ n ∈ Register.names, name n = n

/-! ### Names -/

namespace Renaming

variable (ρ : Renaming)

/-- A text with another name if it is a name, or else as it is. -/
def ident (s : String) : String := if Identifier.isValid s then ρ.name s else s

theorem ident_of_not_isValid {s : String} (h : Identifier.isValid s = false) : ρ.ident s = s := by
  unfold ident
  rw [if_neg (by simp [h])]

@[simp] theorem isValid_ident (s : String) :
    Identifier.isValid (ρ.ident s) = Identifier.isValid s := by
  unfold ident
  cases h : Identifier.isValid s with
  | true =>
    rw [if_pos rfl]
    exact ρ.isValid_name s h
  | false => rw [if_neg Bool.false_ne_true, h]

theorem ident_injective : Function.Injective ρ.ident := by
  intro s t h
  have hvalid : Identifier.isValid s = Identifier.isValid t := by
    rw [← ρ.isValid_ident s, ← ρ.isValid_ident t, h]
  cases hs : Identifier.isValid s with
  | true =>
    have ht := hvalid.symm.trans hs
    unfold ident at h
    rw [if_pos hs, if_pos ht] at h
    exact ρ.name_inj s t hs ht h
  | false =>
    rwa [ρ.ident_of_not_isValid hs, ρ.ident_of_not_isValid (hvalid.symm.trans hs)] at h

theorem ident_register {s : String} (h : s ∈ Register.names) : ρ.ident s = s := by
  unfold ident
  rw [if_pos (Register.isValid_of_mem_names h)]
  exact ρ.name_register s h

theorem ident_mem_names_iff {s : String} : ρ.ident s ∈ Register.names ↔ s ∈ Register.names := by
  constructor
  · intro h
    have he : ρ.ident (ρ.ident s) = ρ.ident s := ρ.ident_register h
    rwa [← ρ.ident_injective he]
  · intro h
    rwa [ρ.ident_register h]

theorem integer?_ident (s : String) : Numeral.integer? (ρ.ident s) = Numeral.integer? s := by
  cases h : Identifier.isValid s with
  | true =>
    rw [Numeral.integer?_of_isValid h,
      Numeral.integer?_of_isValid ((ρ.isValid_ident s).trans h)]
  | false => rw [ρ.ident_of_not_isValid h]

end Renaming

/-! ### Operands -/

namespace Operand

/-- The ways in which an operand speaks of a symbol: `name`, `&name`, `$name` and `rN[name]`. -/
inductive Spelling
  | plain
  | address
  | relative
  | indexed (d : Char)

namespace Spelling

/-- Whether a name can be spelled so.  A plain name is not one of a register. -/
def Allows (n : String) : Spelling → Prop
  | plain => n ∉ Register.names
  | address | relative => True
  | indexed d => Register.IsIndex d

def word (n : String) : Spelling → String
  | plain => n
  | address => "&" ++ n
  | relative => "$" ++ n
  | indexed d => String.ofList ['r', d, '['] ++ n ++ "]"

def operand (n : String) : Spelling → Operand
  | plain => .memory n
  | address => .address n
  | relative => .relative n
  | indexed d => .indexed (Register.ofCode (d.toNat - '0'.toNat)) (.symbol n)

theorem toList_word (n : String) (s : Spelling) :
    (s.word n).toList = match s with
      | plain => n.toList
      | address => '&' :: n.toList
      | relative => '$' :: n.toList
      | indexed d => 'r' :: d :: '[' :: (n.toList ++ [']']) := by
  cases s with
  | plain => rfl
  | address => exact String.toList_append
  | relative => exact String.toList_append
  | indexed d =>
    show (String.ofList ['r', d, '['] ++ n ++ "]").toList = _
    rw [String.toList_append, String.toList_append, String.toList_ofList, List.append_assoc]
    rfl

end Spelling

theorem parse_word {n : String} {s : Spelling} (hn : Identifier.isValid n) (hs : s.Allows n) :
    parse (s.word n) = .ok (s.operand n) := by
  have hvalid : Identifier.valid n.toList := hn
  cases s with
  | plain => exact parse_name hn hs
  | address =>
    rw [parse_address (Spelling.toList_word n .address), if_pos hvalid, String.ofList_toList]
    rfl
  | relative =>
    rw [parse_relative (Spelling.toList_word n .relative), if_pos hvalid, String.ofList_toList]
    rfl
  | indexed d =>
    rw [parse_indexed hs (Spelling.toList_word n (.indexed d)), if_pos List.getLast?_concat,
      List.dropLast_concat]
    unfold displacement
    rw [Literal.read?_of_valid hvalid]
    dsimp only
    rw [if_pos hvalid, String.ofList_toList]
    rfl

/-- An operand that speaks of a symbol spells its name. -/
theorem exists_spelling_of_parse {token : String} {op : Operand} (h : parse token = .ok op) :
    op.symbol? = none ∨ ∃ n, ∃ s : Spelling, Identifier.isValid n ∧ s.Allows n ∧
      token = s.word n := by
  have hs := spelled_of_parse h
  have hname : ∀ n, Identifier.Spelled n → Identifier.isValid (String.ofList n) := fun n hn =>
    (Identifier.isValid_ofList n).trans (Identifier.valid_iff.2 hn)
  -- each form with a name is a way to spell it
  have hword : ∀ (n : List Char) (s : Spelling),
      (s.word (String.ofList n)).toList = token.toList → token = s.word (String.ofList n) :=
    fun n s he => String.toList_inj.1 he.symm
  simp only [Spelling.toList_word, String.toList_ofList] at hword
  generalize token.toList = ts at hs hword
  cases hs with
  | literal hframe _ =>
    cases hframe <;> exact .inl rfl
  | register _ | stack | counter => exact .inl rfl
  | address hn => exact .inr ⟨_, .address, hname _ hn, trivial, hword _ .address rfl⟩
  | relative hn => exact .inr ⟨_, .relative, hname _ hn, trivial, hword _ .relative rfl⟩
  | memory hn hr => exact .inr ⟨_, .plain, hname _ hn, hr, hword _ .plain rfl⟩
  | indexed hd hn =>
    have hindex := (Register.mem_digits_iff.1 hd).1
    exact .inr ⟨_, .indexed _, hname _ hn, hindex, hword _ (.indexed _) rfl⟩

end Operand

/-! ### The words of a row -/

namespace Renaming

variable (ρ : Renaming)

/-- An operand with another name for its symbol: `name`, `&name`, `$name` or `rN[name]`. -/
def operandWord (w : String) : String :=
  match w.toList with
  | '&' :: name => "&" ++ ρ.ident (String.ofList name)
  | '$' :: name => "$" ++ ρ.ident (String.ofList name)
  | 'r' :: d :: '[' :: rest =>
    if '0' ≤ d ∧ d ≤ '7' ∧ rest.getLast? = some ']' then
      String.ofList ['r', d, '['] ++ ρ.ident (String.ofList rest.dropLast) ++ "]"
    else w
  | _ => ρ.ident w

def labelWord (w : String) : String :=
  match Line.label? w with
  | some n => ρ.name n ++ ":"
  | none => w

/-- The words behind the one that selects a statement: names that are laid down or exported, nothing
of interest behind other directives, or else operands. -/
def argWords (word : String) (args : List String) : List String :=
  if word ∈ [".char", ".word", ".long", ".global"] then args.map ρ.ident
  else if word.toList.head? = some '.' then args
  else args.map ρ.operandWord

def lineWords (words : List String) : List String :=
  (words.takeWhile Line.isLabel).map ρ.labelWord ++
    match words.dropWhile Line.isLabel with
    | [] => []
    | word :: args => word :: ρ.argWords word args

def operand : Operand → Operand
  | .address n => .address (ρ.ident n)
  | .memory n => .memory (ρ.ident n)
  | .relative n => .relative (ρ.ident n)
  | .indexed r (.symbol n) => .indexed r (.symbol (ρ.ident n))
  | op => op

theorem operand_of_symbol? {op : Operand} (h : op.symbol? = none) : ρ.operand op = op := by
  cases op with
  | address n | memory n | relative n => cases h
  | indexed r d =>
    cases d with
    | literal l => rfl
    | symbol n => cases h
  | _ => rfl

open Operand (Spelling)

theorem allows_ident {n : String} {s : Spelling} (h : s.Allows n) : s.Allows (ρ.ident n) := by
  cases s with
  | plain => exact fun hmem => h (ρ.ident_mem_names_iff.1 hmem)
  | _ => exact h

theorem operand_operand (n : String) (s : Spelling) :
    ρ.operand (s.operand n) = s.operand (ρ.ident n) := by
  cases s <;> rfl

theorem operandWord_word {n : String} {s : Spelling} (hn : Identifier.isValid n)
    (hs : s.Allows n) : ρ.operandWord (s.word n) = s.word (ρ.ident n) := by
  unfold operandWord
  rw [Spelling.toList_word]
  cases s with
  | plain =>
    have hvalid : Identifier.valid n.toList := hn
    dsimp only
    split
    · rename_i he
      rw [he] at hvalid
      exact absurd (Identifier.isHead_of_valid hvalid) (by decide)
    · rename_i he
      rw [he] at hvalid
      exact absurd (Identifier.isHead_of_valid hvalid) (by decide)
    · rename_i d rest he
      rw [he] at hvalid
      have htail := Identifier.isTail_of_mem hvalid (c := '[') (by simp)
      exact absurd htail (by decide)
    · rfl
  | address =>
    show "&" ++ ρ.ident (String.ofList n.toList) = _
    rw [String.ofList_toList]
    rfl
  | relative =>
    show "$" ++ ρ.ident (String.ofList n.toList) = _
    rw [String.ofList_toList]
    rfl
  | indexed d =>
    show (if '0' ≤ d ∧ d ≤ '7' ∧ (n.toList ++ [']']).getLast? = some ']' then
      String.ofList ['r', d, '['] ++ ρ.ident (String.ofList (n.toList ++ [']']).dropLast) ++ "]"
      else _) = _
    rw [if_pos ⟨hs.1, hs.2, List.getLast?_concat⟩, List.dropLast_concat, String.ofList_toList]
    rfl

theorem exists_spelling_or (w : String) :
    (∃ n, ∃ s : Spelling, Identifier.isValid n ∧ s.Allows n ∧ w = s.word n) ∨
      ρ.operandWord w = w := by
  unfold operandWord
  split
  · rename_i name hw
    have hword : w = Spelling.word (String.ofList name) .address := by
      rw [← String.toList_inj, hw, Spelling.toList_word, String.toList_ofList]
    by_cases hv : Identifier.isValid (String.ofList name)
    · exact .inl ⟨_, .address, hv, trivial, hword⟩
    · rw [ρ.ident_of_not_isValid (by simpa using hv)]
      exact .inr hword.symm
  · rename_i name hw
    have hword : w = Spelling.word (String.ofList name) .relative := by
      rw [← String.toList_inj, hw, Spelling.toList_word, String.toList_ofList]
    by_cases hv : Identifier.isValid (String.ofList name)
    · exact .inl ⟨_, .relative, hv, trivial, hword⟩
    · rw [ρ.ident_of_not_isValid (by simpa using hv)]
      exact .inr hword.symm
  · rename_i d rest hw
    split_ifs with h
    · obtain ⟨hlow, hhigh, hlast⟩ := h
      obtain ⟨name, rfl⟩ := List.getLast?_eq_some_iff.1 hlast
      have hword : w = Spelling.word (String.ofList name) (.indexed d) := by
        rw [← String.toList_inj, hw, Spelling.toList_word, String.toList_ofList]
      rw [List.dropLast_concat]
      by_cases hv : Identifier.isValid (String.ofList name)
      · exact .inl ⟨_, .indexed d, hv, ⟨hlow, hhigh⟩, hword⟩
      · rw [ρ.ident_of_not_isValid (by simpa using hv)]
        exact .inr hword.symm
    · exact .inr rfl
  · by_cases hv : Identifier.isValid w
    · by_cases hmem : w ∈ Register.names
      · exact .inr (ρ.ident_register hmem)
      · exact .inl ⟨w, .plain, hv, hmem, rfl⟩
    · exact .inr (ρ.ident_of_not_isValid (by simpa using hv))

theorem parse_operandWord (w : String) :
    Operand.parse (ρ.operandWord w) = (Operand.parse w).map ρ.operand := by
  -- A word that spells a name is read as its operand on both sides; any other one is left alone and
  -- has no symbol, whether it is read or not.
  by_cases hspelled : ∃ n, ∃ s : Spelling, Identifier.isValid n ∧ s.Allows n ∧ w = s.word n
  · obtain ⟨n, s, hn, hs, rfl⟩ := hspelled
    have hn' : Identifier.isValid (ρ.ident n) := (ρ.isValid_ident n).trans hn
    rw [ρ.operandWord_word hn hs, Operand.parse_word hn hs,
      Operand.parse_word hn' (ρ.allows_ident hs), ← ρ.operand_operand]
    rfl
  · rw [(ρ.exists_spelling_or w).resolve_left hspelled]
    cases hp : Operand.parse w with
    | error f => rfl
    | ok op =>
      have hnone := (Operand.exists_spelling_of_parse hp).resolve_right hspelled
      exact congrArg Except.ok (ρ.operand_of_symbol? hnone).symm

end Renaming

end SS16
