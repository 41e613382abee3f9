import SS16.Proofs.Source.Literals
import SS16.Proofs.Source.OperandWords

/-!
# SS16.Proofs.OperandGrammar — the words that are operands

The forms of an operand are those of a grammar (`Operand.Spelled`), in which a literal can stand in
three places.  A word is read as the operand that it spells; one with a literal that does not fit is
told apart from all others, which are not recognised.  Main statements: `Operand.reading_parse` (what
reading a word can come to), `Operand.wellFormed_of_parse` and `Operand.parse_iff_spelled`.
-/

namespace SS16

/-! ### Registers -/

namespace Register

theorem numbered?_eq_some_iff {s : String} {r : Register} :
    numbered? s = some r ↔ ∃ d, (d, r) ∈ digits ∧ s.toList = ['r', d] := by
  constructor
  · intro h
    obtain ⟨d, hd, hs⟩ := numbered?_eq_some h
    rw [← String.ofList_toList (s := s), hs, numbered?_of_isIndex hd] at h
    exact ⟨d, mem_digits_iff.2 ⟨hd, Option.some.inj h⟩, hs⟩
  · rintro ⟨d, hd, hs⟩
    obtain ⟨hindex, rfl⟩ := mem_digits_iff.1 hd
    rw [← String.ofList_toList (s := s), hs]
    exact numbered?_of_isIndex hindex

theorem pointer?_eq_some_iff {s : String} {r : Register} :
    pointer? s = some r ↔
      s.toList = ['s', 'p'] ∧ r = sp ∨ s.toList = ['p', 'c'] ∧ r = pc := by
  unfold pointer?
  split
  · rename_i hs
    simp [hs, eq_comm]
  · rename_i hs
    simp [hs, eq_comm]
  · rename_i hs hp
    constructor
    · intro h
      cases h
    · rintro (⟨h, -⟩ | ⟨h, -⟩)
      · exact absurd h hs
      · exact absurd h hp

theorem not_mem_names {s : String} (hn : numbered? s = none) (hp : pointer? s = none) :
    s ∉ names := by
  intro hmem
  have hall : ∀ s ∈ names, numbered? s ≠ none ∨ pointer? s ≠ none := by decide +kernel
  rcases hall s hmem with hne | hne
  · exact hne hn
  · exact hne hp

end Register

/-- Literals of one base that stand for the same number. -/
def Literal.Alike (l m : Literal) : Prop := l.base = m.base ∧ ∃ n, l.Holds n ∧ m.Holds n

namespace Operand

/-! ### The grammar -/

/-- The three places of a literal in an operand, each with the operand that a literal makes there. -/
inductive Frame : List Char → List Char → (Literal → Operand) → Prop
  | immediate (cs : List Char) : Frame cs cs immediate
  | memoryAt (cs : List Char) : Frame ('*' :: cs) cs memoryAt
  | indexed {d : Char} {r : Register} (hd : (d, r) ∈ Register.digits) (cs : List Char) :
    Frame ('r' :: d :: '[' :: (cs ++ [']'])) cs fun l => indexed r (.literal l)

theorem Frame.extra? {token cs : List Char} {make : Literal → Operand} (h : Frame token cs make)
    (l : Literal) : (make l).extra? = some (.literal l) := by
  cases h <;> rfl

/-- The forms of an operand. -/
inductive Spelled : List Char → Operand → Prop
  /-- `42`, `*42` or `r1[42]`, in either base. -/
  | literal {token cs : List Char} {make : Literal → Operand} {l : Literal}
    (h : Frame token cs make) (hl : Literal.Spelled cs l) : Spelled token (make l)
  /-- `r0` to `r7`. -/
  | register {d : Char} {r : Register} (hd : (d, r) ∈ Register.digits) :
    Spelled ['r', d] (.register r)
  | stack : Spelled ['s', 'p'] (.pointer .sp)
  | counter : Spelled ['p', 'c'] (.pointer .pc)
  /-- `&name`. -/
  | address {n : List Char} (hn : Identifier.Spelled n) :
    Spelled ('&' :: n) (.address (String.ofList n))
  /-- `name`, unless a register is called so. -/
  | memory {n : List Char} (hn : Identifier.Spelled n) (hr : String.ofList n ∉ Register.names) :
    Spelled n (.memory (String.ofList n))
  /-- `r1[name]`. -/
  | indexed {d : Char} {r : Register} {n : List Char} (hd : (d, r) ∈ Register.digits)
    (hn : Identifier.Spelled n) :
    Spelled ('r' :: d :: '[' :: (n ++ [']'])) (.indexed r (.symbol (String.ofList n)))
  /-- `$name`. -/
  | relative {n : List Char} (hn : Identifier.Spelled n) :
    Spelled ('$' :: n) (.relative (String.ofList n))

/-- Whether a word has a literal that does not fit. -/
def Oversized (token : List Char) : Prop :=
  ∃ cs make, Frame token cs make ∧ Literal.Oversized cs

/-- Operands of one form with the same register, name or number. -/
inductive Alike : Operand → Operand → Prop
  | refl (op : Operand) : Alike op op
  | literal {token cs : List Char} {make : Literal → Operand} {l m : Literal}
    (h : Frame token cs make) (hl : l.Alike m) : Alike (make l) (make m)

/-! ### What is read -/

/-- What reading a word can come to. -/
inductive Reading (token : String) : Except Fault Operand → Prop
  /-- A literal decides for itself whether it fits. -/
  | literal {cs : List Char} {make : Literal → Operand} {l : Except Fault Literal}
    (h : Frame token.toList cs make) (hl : Literal.read? token cs = some l) :
    Reading token (l.map make)
  | spelled {op : Operand} (h : Spelled token.toList op)
    (hl : ∀ l, op.extra? ≠ some (.literal l)) : Reading token (.ok op)
  | unrecognized : Reading token (.error (.unrecognizedOperand token))

variable {token : String}

theorem parseIndexed_cases (token : String) :
    parseIndexed token token.toList = .error (.unrecognizedOperand token) ∨
      ∃ d r cs, (d, r) ∈ Register.digits ∧ token.toList = 'r' :: d :: '[' :: (cs ++ [']']) ∧
        parseIndexed token token.toList = (displacement token cs).map (.indexed r) := by
  unfold parseIndexed
  split
  · rename_i r x inner hr hdrop
    obtain ⟨d, hd, htake⟩ := Register.numbered?_eq_some_iff.1 hr
    rw [String.toList_ofList] at htake
    split_ifs with hlast
    · have hx : x = '[' := by
        have hfirst := List.head?_dropWhile_not (· != '[') token.toList
        rw [hdrop] at hfirst
        simpa using hfirst
      obtain ⟨cs, rfl⟩ := List.getLast?_eq_some_iff.1 hlast
      have hsplit := List.takeWhile_append_dropWhile (p := (· != '[')) (l := token.toList)
      rw [htake, hdrop, hx] at hsplit
      rw [List.dropLast_concat]
      exact .inr ⟨d, r, cs, hd, hsplit.symm, rfl⟩
    · exact .inl rfl
  · exact .inl rfl

theorem reading_parseMarked (token : String) :
    Reading token (parseMarked token token.toList) := by
  unfold parseMarked
  split
  · rename_i name htoken
    split_ifs with hn
    · exact .spelled (htoken ▸ .address (Identifier.valid_iff.1 hn)) nofun
    · exact .unrecognized
  · rename_i name htoken
    split_ifs with hn
    · exact .spelled (htoken ▸ .relative (Identifier.valid_iff.1 hn)) nofun
    · exact .unrecognized
  · rename_i cs htoken
    split
    · rename_i l hl
      exact .literal (htoken ▸ .memoryAt cs) hl
    · exact .unrecognized
  · rcases parseIndexed_cases token with h | ⟨d, r, cs, hd, htoken, h⟩
    · rw [h]
      exact .unrecognized
    · rw [h]
      unfold displacement
      split
      · rename_i l hl
        have hread := Reading.literal (htoken ▸ Frame.indexed hd cs) hl
        cases l with
        | error f => exact hread
        | ok l => exact hread
      · split_ifs with hn
        · exact .spelled (htoken ▸ .indexed hd (Identifier.valid_iff.1 hn)) nofun
        · exact .unrecognized

theorem reading_parse (token : String) : Reading token (parse token) := by
  unfold parse
  split
  · rename_i l hl
    exact .literal (.immediate _) hl
  · split
    · rename_i r hr
      obtain ⟨d, hd, htoken⟩ := Register.numbered?_eq_some_iff.1 hr
      exact .spelled (htoken ▸ .register hd) nofun
    · rename_i r hr hp
      rcases Register.pointer?_eq_some_iff.1 hp with ⟨htoken, rfl⟩ | ⟨htoken, rfl⟩
      · exact .spelled (htoken ▸ .stack) nofun
      · exact .spelled (htoken ▸ .counter) nofun
    · rename_i hr hp
      split_ifs with hn
      · have hmemory := Spelled.memory (n := token.toList) (Identifier.valid_iff.1 hn)
          (by rw [String.ofList_toList]; exact Register.not_mem_names hr hp)
        rw [String.ofList_toList] at hmemory
        exact .spelled hmemory nofun
      · exact reading_parseMarked token

theorem spelled_of_parse {op : Operand} (h : parse token = .ok op) : Spelled token.toList op := by
  have hread := reading_parse token
  rw [h] at hread
  generalize hx : (Except.ok op : Except Fault Operand) = x at hread
  cases hread with
  | spelled hs _ =>
    cases hx
    exact hs
  | @literal cs make l hframe hl =>
    obtain ⟨l, rfl, rfl⟩ := Results.map_eq_ok_iff.1 hx.symm
    exact .literal hframe (Literal.spelled_of_read? hl)
  | unrecognized => cases hx

theorem wellFormed_of_parse {op : Operand} {w : ExtraWord} (h : parse token = .ok op)
    (hw : op.extra? = some w) : w.WellFormed := by
  have hread := reading_parse token
  rw [h] at hread
  generalize hx : (Except.ok op : Except Fault Operand) = x at hread
  cases hread with
  | @literal cs make l hframe hl =>
    obtain ⟨l, rfl, rfl⟩ := Results.map_eq_ok_iff.1 hx.symm
    rw [hframe.extra?] at hw
    cases hw
    exact Literal.wellFormed_of_read? hl
  | spelled hs hnone =>
    cases hx
    generalize token.toList = ts at hs
    cases hs with
    | literal hframe _ => exact absurd (hframe.extra? _) (hnone _)
    | address hn | memory hn _ | indexed _ hn | relative hn =>
      cases hw
      exact (Identifier.isValid_ofList _).trans (Identifier.valid_iff.2 hn)
    | _ => cases hw
  | unrecognized => cases hx

theorem isValid_of_parse {op : Operand} {n : String} (h : parse token = .ok op)
    (hn : op.symbol? = some n) : Identifier.isValid n := by
  obtain ⟨kind, hw⟩ := symbol?_eq_some hn
  exact wellFormed_of_parse h hw

theorem exists_holds_of_parse {op : Operand} {l : Literal} (h : parse token = .ok op)
    (hl : op.extra? = some (.literal l)) : ∃ n < UInt16.size, l.Holds n := by
  have hs := spelled_of_parse h
  generalize token.toList = ts at hs
  cases hs with
  | literal hframe hspelled =>
    rw [hframe.extra?] at hl
    cases hl
    obtain ⟨n, hn, -, hholds⟩ := hspelled
    exact ⟨n, hn, hholds⟩
  | _ => cases hl

theorem parse_of_frame {cs : List Char} {make : Literal → Operand} {l : Except Fault Literal}
    (h : Frame token.toList cs make) (hl : Literal.read? token cs = some l) :
    parse token = l.map make := by
  generalize htoken : token.toList = ts at h
  cases h with
  | immediate cs =>
    unfold parse
    rw [htoken, hl]
  | memoryAt cs =>
    rw [parse_memoryAt htoken, hl]
    rfl
  | indexed hd cs =>
    obtain ⟨hindex, rfl⟩ := Register.mem_digits_iff.1 hd
    rw [parse_indexed hindex htoken, if_pos List.getLast?_concat, List.dropLast_concat]
    unfold displacement
    rw [hl]
    cases l <;> rfl

/-- What a word spells is read, but for the digits of a hexadecimal literal. -/
theorem exists_parse_of_spelled {op : Operand} (h : Spelled token.toList op) :
    ∃ op', parse token = .ok op' ∧ op'.Alike op := by
  generalize htoken : token.toList = ts at h
  have hword : token = String.ofList ts := by rw [← htoken, String.ofList_toList]
  cases h with
  | @literal _ cs make l hframe hl =>
    obtain ⟨n, hn, hw, hholds⟩ := hl
    obtain ⟨l', hread, hbase, hholds'⟩ := (Literal.read?_of_written hw token).1 hn
    exact ⟨make l', parse_of_frame (htoken ▸ hframe) hread,
      .literal hframe ⟨hbase, n, hholds', hholds⟩⟩
  | @register d r hd =>
    refine ⟨_, ?_, .refl _⟩
    have hr := Register.numbered?_eq_some_iff.2 ⟨d, hd, htoken⟩
    unfold parse
    rw [htoken, Literal.read?_eq_none (by decide), hr]
  | stack =>
    rw [hword]
    exact ⟨_, by decide, .refl _⟩
  | counter =>
    rw [hword]
    exact ⟨_, by decide, .refl _⟩
  | @address n hn =>
    refine ⟨_, ?_, .refl _⟩
    rw [parse_address htoken, if_pos (Identifier.valid_iff.2 hn)]
  | @memory _ hn hr =>
    refine ⟨_, ?_, .refl _⟩
    rw [hword]
    exact parse_name ((Identifier.isValid_ofList ts).trans (Identifier.valid_iff.2 hn)) hr
  | @indexed d r n hd hn =>
    refine ⟨_, ?_, .refl _⟩
    have hvalid := Identifier.valid_iff.2 hn
    obtain ⟨hindex, rfl⟩ := Register.mem_digits_iff.1 hd
    rw [parse_indexed hindex htoken, if_pos List.getLast?_concat, List.dropLast_concat]
    unfold displacement
    rw [Literal.read?_of_valid hvalid]
    dsimp only
    rw [if_pos hvalid]
    rfl
  | @relative n hn =>
    refine ⟨_, ?_, .refl _⟩
    rw [parse_relative htoken, if_pos (Identifier.valid_iff.2 hn)]

theorem parse_of_oversized (h : Oversized token.toList) :
    parse token = .error (.literalOverflow token 2) := by
  obtain ⟨cs, make, hframe, base, n, hw, hn⟩ := h
  exact parse_of_frame hframe ((Literal.read?_of_written hw token).2 hn)

theorem fault_of_parse {f : Fault} (h : parse token = .error f) :
    f = .literalOverflow token 2 ∧ Oversized token.toList ∨ f = .unrecognizedOperand token := by
  have hread := reading_parse token
  generalize parse token = x at h hread
  cases hread with
  | spelled _ _ => cases h
  | @literal cs make l hframe hl =>
    obtain rfl := Results.map_eq_error_iff.1 h
    obtain ⟨rfl, ho⟩ := Literal.oversized_of_read? hl
    exact .inl ⟨rfl, cs, make, hframe, ho⟩
  | unrecognized =>
    cases h
    exact .inr rfl

/-- Words are read by the grammar.  What is read is what the word spells, and whatever a word spells is
read, with digits of the same number if it has a hexadecimal literal.  A word is refused for a
literal that does not fit exactly if it has one, and not recognised exactly if it has none and spells
nothing. -/
theorem parse_iff_spelled (token : String) :
    (∀ op, parse token = .ok op → Spelled token.toList op) ∧
    (∀ op, Spelled token.toList op → ∃ op', parse token = .ok op' ∧ op'.Alike op) ∧
    (parse token = .error (.literalOverflow token 2) ↔ Oversized token.toList) ∧
    (parse token = .error (.unrecognizedOperand token) ↔
      ¬ Oversized token.toList ∧ ∀ op, ¬ Spelled token.toList op) := by
  refine ⟨fun _ => spelled_of_parse, fun _ => exists_parse_of_spelled,
    ⟨fun h => ?_, parse_of_oversized⟩, fun h => ⟨fun ho => ?_, fun op hs => ?_⟩, ?_⟩
  · rcases fault_of_parse h with ⟨-, ho⟩ | h
    · exact ho
    · cases h
  · cases (parse_of_oversized ho).symm.trans h
  · obtain ⟨op', hop, -⟩ := exists_parse_of_spelled hs
    cases hop.symm.trans h
  · rintro ⟨ho, hs⟩
    cases hp : parse token with
    | ok op => exact absurd (spelled_of_parse hp) (hs op)
    | error f =>
      rcases fault_of_parse hp with ⟨-, h⟩ | rfl
      · exact absurd h ho
      · rfl

end Operand

end SS16
