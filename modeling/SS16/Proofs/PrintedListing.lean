import SS16.Assembly.Listing
import SS16.Proofs.Disassembly
import SS16.Proofs.Object.Rows
import SS16.Proofs.Source.Literals
import SS16.Proofs.Tiling

/-!
# SS16.Proofs.PrintedListing — the printed listing shows every row and every entry

Rows and entries are printed side by side in one pass, which takes the next entry off as soon as its
row comes.  Entries are listed by their rows, one at most for each, so all of them are taken, and a
word of `.text` is printed as the instruction that was encoded.  Main statements: `Listing.body_eq`
(what stands beside a row), `exists_instruction_of_assemble` (the entry of an instruction line) and
`Listing.render_of_assemble`.
-/

namespace SS16

/-! ### Texts and digits -/

/-- Texts of one length tell apart what stands behind them. -/
theorem Text.append_inj {s s' t t' : String} (h : s ++ t = s' ++ t')
    (hlength : s.length = s'.length) : s = s' ∧ t = t' := by
  have hlists := congrArg String.toList h
  rw [String.toList_append, String.toList_append] at hlists
  exact (List.append_inj hlists hlength).imp String.toList_inj.1 String.toList_inj.1

def Text.blanks (n : Nat) : String := String.ofList (List.replicate n ' ')

namespace Numeral

/-- The last `count` digits of a number in a base, with capital letters above nine. -/
def lastDigits (base count n : Nat) : String :=
  String.ofList ((List.range count).reverse.map fun p =>
    (Nat.digitChar (n / base ^ p % base)).toUpper)

theorem div_pow_succ_mod (base n p : Nat) :
    n / base ^ (p + 1) % base = n / base / base ^ p % base := by
  rw [Nat.pow_succ', Nat.div_div_eq_div_mul]

theorem ofDigits_range (base count n : Nat) :
    Nat.ofDigits base ((List.range count).map fun p => n / base ^ p % base) = n % base ^ count := by
  induction count generalizing n with
  | zero => rw [Nat.pow_zero, Nat.mod_one]; rfl
  | succ count ih =>
    rw [List.range_succ_eq_map, List.map_cons, List.map_map, Nat.ofDigits_cons, Nat.pow_zero,
      Nat.div_one, Nat.pow_succ', Nat.mod_mul, ← ih (n / base)]
    simp only [Function.comp_def, Nat.succ_eq_add_one, div_pow_succ_mod]

/-- Enough digits stand for the number. -/
theorem denotes_lastDigits {base count n : Nat} (hbase : 0 < base) (hcount : 0 < count)
    (hn : n < base ^ count) : Denotes base (lastDigits base count n).toList n := by
  refine ⟨(List.range count).reverse.map fun p => n / base ^ p % base, ⟨?_, ?_⟩, ?_⟩
  · rw [← List.length_pos_iff]
    simpa using hcount
  · unfold lastDigits
    rw [String.toList_ofList, List.forall₂_map_left_iff, List.forall₂_map_right_iff,
      List.forall₂_same]
    exact fun p _ => ⟨Nat.mod_lt _ hbase, .inr rfl⟩
  · rw [← List.map_reverse, List.reverse_reverse, ofDigits_range, Nat.mod_eq_of_lt hn]

theorem length_lastDigits (base count n : Nat) : (lastDigits base count n).length = count := by
  unfold lastDigits
  rw [String.length_ofList, List.length_map, List.length_reverse, List.length_range]

end Numeral

theorem Numeral.Denotes.unique {base : Nat} (hb : base ≤ 16) {cs : List Char} {m n : Nat}
    (hm : Denotes base cs m) (hn : Denotes base cs n) : m = n :=
  ((denotes_iff hb).1 hm).2.symm.trans ((denotes_iff hb).1 hn).2

theorem Hex.digits_eq (count n : Nat) :
    String.ofList (digits count n) = Numeral.lastDigits 16 count n := by
  have hdigit : ∀ d < 16, digit d = (Nat.digitChar d).toUpper := by decide
  unfold Numeral.lastDigits
  congr 1
  induction count generalizing n with
  | zero => rfl
  | succ count ih =>
    rw [digits, ih, List.range_succ_eq_map, List.reverse_cons, List.map_append, ← List.map_reverse,
      List.map_map, List.map_singleton, Nat.pow_zero, Nat.div_one,
      hdigit _ (Nat.mod_lt _ (by decide))]
    simp only [Function.comp_def, Nat.succ_eq_add_one, Numeral.div_pow_succ_mod]

/-! ### Instructions -/

namespace Field

theorem bits_ofBits {n : Nat} (h : n < 32) : (ofBits n).bits = n := by
  have hall : ∀ n < 32, (ofBits n).bits = n := by decide
  exact hall n h

theorem number_lt (f : Field) : f.number < 32 := f.number_eq ▸ f.bits_lt

theorem number_injective : Function.Injective number := fun f g h =>
  Function.LeftInverse.injective ofBits_bits (f.number_eq.symm.trans (h.trans g.number_eq))

theorem lastDigits_number_injective :
    Function.Injective fun f : Field => Numeral.lastDigits 2 5 f.number := by
  intro f g (h : Numeral.lastDigits 2 5 f.number = Numeral.lastDigits 2 5 g.number)
  have hdenotes : ∀ f : Field,
      Numeral.Denotes 2 (Numeral.lastDigits 2 5 f.number).toList f.number := fun f =>
    Numeral.denotes_lastDigits (by decide) (by decide) f.number_lt
  exact number_injective ((h ▸ hdenotes f).unique (by decide) (hdenotes g))

theorem text_eq (f : Field) : f.text = Numeral.lastDigits 2 5 f.number := by
  obtain ⟨m, r⟩ := f
  cases m <;> cases r <;> rfl

end Field

theorem Condition.name_inj {c d : Condition} : c.name = d.name ↔ c = d := by
  refine ⟨fun h => ?_, congrArg name⟩
  have hread := c.parse?_name
  rw [h, d.parse?_name] at hread
  exact (Option.some.inj hread).symm

theorem Opcode.name_inj {o p : Opcode} : o.name = p.name ↔ o = p := by
  refine ⟨fun h => ?_, congrArg name⟩
  have hread : Operation.parse? o.name = some (.machine o) := (Operation.machine o).parse?_name
  rw [h, show Operation.parse? p.name = some (.machine p) from
    (Operation.machine p).parse?_name] at hread
  cases hread
  rfl

theorem Opcode.isCell_name (o : Opcode) : Text.IsCell o.name := by
  cases o <;> decide

theorem Opcode.left_name_inj {width : Nat} {o p : Opcode} :
    Column.left width o.name = Column.left width p.name ↔ o = p := by
  refine ⟨fun h => ?_, fun h => by rw [h]⟩
  have hname := (o.isCell_name.left width).words
  rw [h, (p.isCell_name.left width).words] at hname
  exact (name_inj.1 (List.singleton_inj.1 hname)).symm

namespace Instruction

theorem word_ofWord (w : UInt16) : (ofWord w).word = w := by
  have hcondition : ∀ n < 4, (Condition.ofCode n).code = n := by decide
  have hopcode : ∀ n < 16, (Opcode.ofCode n).code = n := by decide
  have hw := w.toNat_lt
  rw [← UInt16.toNat_inj, toNat_word]
  unfold ofWord
  dsimp only
  rw [hcondition _ (by omega), hopcode _ (by omega), Field.bits_ofBits (by omega),
    Field.bits_ofBits (by omega)]
  omega

theorem bytes_ofWord (high low : UInt8) : (ofWord (wordOf high low)).bytes = [high, low] := by
  have hhigh := high.toNat_lt
  have hlow := low.toNat_lt
  have hword : (wordOf high low).toNat = high.toNat * 256 + low.toNat := by
    unfold wordOf
    rw [UInt16.toNat_ofNat']
    omega
  unfold bytes
  rw [word_ofWord, hword]
  congr 1
  · rw [← UInt8.toNat_inj, UInt8.toNat_ofNat']
    omega
  · congr 1
    rw [← UInt8.toNat_inj, UInt8.toNat_ofNat']
    omega

/-- The text of an instruction, in colour: its condition, its opcode in a column of five and five
binary digits for each of its fields. -/
def shown (i : Instruction) : String :=
  "\x1b[31m" ++ i.condition.name ++ "\x1b[1m" ++
    (i.opcode.name ++ Text.blanks (5 - i.opcode.name.length)) ++ "\x1b[34m" ++ "\x1b[22m" ++
    Numeral.lastDigits 2 5 i.first.number ++ " " ++ Numeral.lastDigits 2 5 i.second.number ++
    "\x1b[39m"

theorem render_eq (i : Instruction) : i.render = i.shown := by
  have hcondition : Column.left 2 i.condition.name = i.condition.name := by
    cases i.condition <;> decide
  unfold render shown
  rw [hcondition, i.first.text_eq, i.second.text_eq]
  rfl

/-- A text is that of one instruction: its columns are cut by their widths. -/
theorem shown_injective : Function.Injective shown := by
  have hcondition : ∀ c : Condition, c.name.length = 2 := fun c => by cases c <;> decide
  have hopcode : ∀ o : Opcode, (Column.left 5 o.name).length = 5 := fun o => by cases o <;> decide
  have hcolumn : ∀ (o : Opcode) (s : String), o.name ++ (Text.blanks (5 - o.name.length) ++ s) =
      Column.left 5 o.name ++ s := fun _ _ => String.append_assoc.symm
  rintro ⟨c, o, f, g⟩ ⟨c', o', f', g'⟩ htext
  -- the escape sequences are the same in both texts, so that only the columns are compared
  unfold shown at htext
  simp only [String.append_assoc, String.append_right_inj, hcolumn] at htext
  obtain ⟨hc, hrest⟩ := Text.append_inj htext (by rw [hcondition, hcondition])
  rw [String.append_right_inj] at hrest
  obtain ⟨ho, hfields⟩ := Text.append_inj hrest (by rw [hopcode, hopcode])
  rw [String.append_right_inj, String.append_right_inj] at hfields
  obtain ⟨hf, hg⟩ := Text.append_inj hfields
    (by rw [Numeral.length_lastDigits, Numeral.length_lastDigits])
  rw [String.append_right_inj, String.append_left_inj] at hg
  obtain rfl := Condition.name_inj.1 hc
  obtain rfl := Opcode.left_name_inj.1 ho
  obtain rfl := Field.lastDigits_number_injective hf
  obtain rfl := Field.lastDigits_number_injective hg
  rfl

end Instruction

/-! ### Entries -/

namespace Entry

/-- Where an entry begins and what it holds, in colour: four digits of its offset, two digits for each
of its first four bytes, in a column of eleven, and a plus sign if there are more. -/
def shown (e : Entry) : String :=
  let bytes := String.intercalate " "
    ((e.bytes.take 4).map fun b => Numeral.lastDigits 16 2 b.toNat)
  "[" ++ "\x1b[32m" ++ Numeral.lastDigits 16 4 e.offset.toNat ++ "\x1b[39m" ++ "] " ++
    (bytes ++ Text.blanks (11 - bytes.length)) ++ (if 4 < e.bytes.length then "+" else " ")

theorem laidDown_eq (e : Entry) : Listing.laidDown e = e.shown := by
  have hdump : Hex.dump (e.bytes.take 4) = String.intercalate " "
      ((e.bytes.take 4).map fun b => Numeral.lastDigits 16 2 b.toNat) := by
    unfold Hex.dump Hex.byte
    simp only [Hex.digits_eq]
  unfold Listing.laidDown shown Hex.word
  rw [Hex.digits_eq, show Listing.shownBytes = 4 from rfl, hdump]
  rfl

/-- What stands behind a row: the instruction whose word an entry of `.text` begins with, or else
nothing. -/
inductive Noted (e : Entry) : String → Prop
  | word {i : Instruction} (hk : e.kind = .text)
    (hi : Instruction.bigEndian i.packed <+: e.bytes) : Noted e ("    ; " ++ i.shown)
  | nothing (h : e.kind = .text → e.bytes.length < 2) : Noted e ""

theorem decoded_of_bytes {e : Entry} {i : Instruction} (hk : e.kind = .text)
    (hi : Instruction.bigEndian i.packed <+: e.bytes) :
    Listing.decoded e = "    ; " ++ i.shown := by
  rw [← i.bytes_eq] at hi
  obtain ⟨extra, hbytes⟩ := hi
  obtain ⟨high, low, hpair, hword⟩ := i.wordOf_bytes
  unfold Listing.decoded Listing.instruction?
  rw [hk, ← hbytes, hpair]
  show "    ; " ++ (Instruction.ofWord (Instruction.wordOf high low)).render = _
  rw [hword, i.render_eq]

theorem noted_decoded (e : Entry) : e.Noted (Listing.decoded e) := by
  by_cases h : e.kind = .text ∧ 2 ≤ e.bytes.length
  · obtain ⟨hk, hlen⟩ := h
    match hbytes : e.bytes, hlen with
    | high :: low :: rest, _ =>
      have hi : Instruction.bigEndian (Instruction.ofWord (Instruction.wordOf high low)).packed <+:
          e.bytes := by
        rw [hbytes, ← Instruction.bytes_eq, Instruction.bytes_ofWord]
        exact ⟨rest, rfl⟩
      rw [decoded_of_bytes hk hi]
      exact .word hk hi
  · have hnone : Listing.instruction? e = none := by
      unfold Listing.instruction?
      split
      · rename_i hk hbytes
        exact absurd ⟨hk, by simp [hbytes]⟩ h
      · rfl
    unfold Listing.decoded
    rw [hnone]
    exact .nothing fun hk => Nat.lt_of_not_le fun hlen => h ⟨hk, hlen⟩

end Entry

/-! ### Printing -/

namespace Listing

variable {entries : List Entry}

theorem exists_takeEntry_eq {row : Nat} (h : (entries.map Entry.row).Pairwise (· < ·))
    (hrow : ∀ e ∈ entries, row ≤ e.row) :
    ∃ rest, takeEntry row entries = (entries.find? fun e => e.row = row, rest) ∧
      (rest.map Entry.row).Pairwise (· < ·) ∧ (∀ e ∈ rest, row + 1 ≤ e.row) ∧
      ∀ r, row < r → (rest.find? fun e => e.row = r) = entries.find? fun e => e.row = r := by
  cases entries with
  | nil => exact ⟨[], rfl, h, fun e he => (by cases he), fun _ _ => rfl⟩
  | cons e es =>
    obtain ⟨hlater, hes⟩ := List.pairwise_cons.1 h
    have hlater : ∀ x ∈ es, e.row < x.row := fun x hx => hlater _ (List.mem_map_of_mem hx)
    have hfirst := hrow e List.mem_cons_self
    by_cases he : e.row = row
    · refine ⟨es, ?_, hes, fun x hx => he ▸ hlater x hx, fun r hr => ?_⟩
      · rw [List.find?_cons_of_pos (by simpa using he)]
        exact if_pos he
      · rw [List.find?_cons_of_neg (by simp; omega)]
    · have hall : ∀ x ∈ e :: es, row + 1 ≤ x.row := by
        intro x hx
        rcases List.mem_cons.1 hx with rfl | hx
        · omega
        · have := hlater x hx
          omega
      refine ⟨e :: es, ?_, h, hall, fun _ _ => rfl⟩
      have hnone : ((e :: es).find? fun e => e.row = row) = none := by
        rw [List.find?_eq_none]
        intro x hx hxr
        have := hall x hx
        have := of_decide_eq_true hxr
        omega
      rw [hnone]
      exact if_neg he

theorem foldl_printRow {rows : List String} {first : Nat} {acc : Array String}
    (h : (entries.map Entry.row).Pairwise (· < ·)) (hfirst : ∀ e ∈ entries, first ≤ e.row) :
    ((rows.zipIdx first).foldl printRow (entries, acc)).2.toList = acc.toList ++
      (rows.zipIdx first).map fun r => line r.2 r.1 (entries.find? fun e => e.row = r.2) := by
  -- later entries are looked up in what is left of the entries behind the next row
  induction rows generalizing first entries acc with
  | nil => simp
  | cons raw rows ih =>
    obtain ⟨rest, htake, hrest, hlater, hsame⟩ := exists_takeEntry_eq h hfirst
    have hrows : ∀ r ∈ rows.zipIdx (first + 1),
        line r.2 r.1 (rest.find? fun e => e.row = r.2) =
          line r.2 r.1 (entries.find? fun e => e.row = r.2) := fun r hr => by
      rw [hsame r.2 (List.le_snd_of_mem_zipIdx hr)]
    have hstep : printRow (entries, acc) (raw, first) =
        (rest, acc.push (line first raw (entries.find? fun e => e.row = first))) := by
      unfold printRow
      dsimp only
      rw [htake]
    rw [List.zipIdx_cons, List.foldl_cons, hstep, ih hrest hlater, List.map_congr_left hrows,
      Array.toList_push, List.append_assoc, List.singleton_append, List.map_cons]

/-- If entries are listed by their rows, one at most for each, every row is printed beside its own
entry. -/
theorem body_eq (h : (entries.map Entry.row).Pairwise (· < ·)) (source : String) :
    body source entries = (Text.rows source).zipIdx.map fun r =>
      line r.2 r.1 (entries.find? fun e => e.row = r.2) := by
  unfold body
  rw [foldl_printRow h fun _ _ => Nat.zero_le _]
  rfl

theorem find?_row_eq_some_iff (h : (entries.map Entry.row).Pairwise (· < ·)) {row : Nat} {e : Entry} :
    (entries.find? fun e => e.row = row) = some e ↔ e ∈ entries ∧ e.row = row := by
  have hfound : ∀ {e : Entry}, (entries.find? fun e => e.row = row) = some e →
      e ∈ entries ∧ e.row = row := fun he =>
    ⟨List.mem_of_find?_eq_some he, by simpa using List.find?_some he⟩
  refine ⟨hfound, ?_⟩
  rintro ⟨he, hrow⟩
  have hsome : (entries.find? fun e => e.row = row).isSome :=
    List.find?_isSome.2 ⟨e, he, by simpa using hrow⟩
  obtain ⟨e', he'⟩ := Option.isSome_iff_exists.1 hsome
  obtain ⟨hmem, hrow'⟩ := hfound he'
  rw [he', List.inj_on_of_nodup_map (h.imp Nat.ne_of_lt) hmem he (hrow'.trans hrow.symm)]

/-- A row of the source behind its number from one, at the right edge of four columns. -/
def numbered (row : Nat) (raw : String) : String :=
  "| " ++ (Text.blanks (4 - (toString (row + 1)).length) ++ toString (row + 1)) ++ ": " ++ raw

theorem line_some (row : Nat) (raw : String) (e : Entry) :
    line row raw (some e) = e.shown ++ numbered row raw ++ decoded e := by
  rw [← e.laidDown_eq]
  rfl

/-- What is printed for a row: its number and its text, beside them the row's entry, and a note on the
entry behind them. -/
inductive Prints (entries : List Entry) (row : Nat) (raw : String) : String → Prop
  | entry {e : Entry} {note : String} (he : e ∈ entries) (hrow : e.row = row)
    (hnote : e.Noted note) : Prints entries row raw (e.shown ++ numbered row raw ++ note)
  | bare (h : ∀ e ∈ entries, e.row ≠ row) :
    Prints entries row raw (Text.blanks 19 ++ numbered row raw)

theorem prints_line (h : (entries.map Entry.row).Pairwise (· < ·)) (row : Nat) (raw : String) :
    Prints entries row raw (line row raw (entries.find? fun e => e.row = row)) := by
  cases hfind : entries.find? fun e => e.row = row with
  | none =>
    rw [List.find?_eq_none] at hfind
    exact .bare fun e he hrow => hfind e he (by simpa using hrow)
  | some e =>
    obtain ⟨he, hrow⟩ := (find?_row_eq_some_iff h).1 hfind
    rw [line_some]
    exact .entry he hrow e.noted_decoded

example : line 2 "b: .char 1 ; one" (some ⟨2, .data, 5, [1]⟩) =
    "[\x1b[32m0005\x1b[39m] 01          |    3: b: .char 1 ; one" := by decide +kernel

end Listing

/-! ### Line feeds -/

namespace Text

theorem IsRow.not_mem {s : String} {cells : List String} (h : IsRow s cells) : '\n' ∉ s.toList :=
  fun hc => (h.plain _ hc).1 rfl

theorem not_mem_append {s t : String} :
    '\n' ∉ (s ++ t).toList ↔ '\n' ∉ s.toList ∧ '\n' ∉ t.toList := by
  rw [String.toList_append, List.mem_append, not_or]

end Text

theorem Text.not_mem_blanks (n : Nat) : '\n' ∉ (blanks n).toList := by
  unfold blanks
  rw [String.toList_ofList, List.mem_replicate]
  rintro ⟨-, h⟩
  exact absurd h (by decide)

theorem Numeral.not_mem_lastDigits (count n : Nat) : '\n' ∉ (lastDigits 2 count n).toList := by
  have hdigit : ∀ d < 2, (Nat.digitChar d).toUpper ≠ '\n' := by decide
  unfold lastDigits
  rw [String.toList_ofList]
  intro h
  obtain ⟨p, -, hp⟩ := List.mem_map.1 h
  exact hdigit _ (Nat.mod_lt _ (by decide)) hp

open Text in
theorem Instruction.not_mem_shown (i : Instruction) : '\n' ∉ i.shown.toList := by
  have hcondition : '\n' ∉ i.condition.name.toList := by cases i.condition <;> decide
  have hopcode := i.opcode.isCell_name.isRow.not_mem
  unfold shown
  simp only [not_mem_append, hcondition, hopcode, not_mem_blanks, Numeral.not_mem_lastDigits]
  decide

namespace Listing

open Text

theorem not_mem_decoded (e : Entry) : '\n' ∉ (decoded e).toList := by
  unfold decoded
  cases instruction? e with
  | none => decide
  | some i => exact not_mem_append.2 ⟨by decide, i.render_eq ▸ i.not_mem_shown⟩

theorem not_mem_laidDown (e : Entry) : '\n' ∉ (laidDown e).toList := by
  have hoffset := (isCell_word e.offset).isRow.not_mem
  have hbytes := ((Object.isRow_dump (e.bytes.take shownBytes)).left 11).not_mem
  have hmark : '\n' ∉ (if shownBytes < e.bytes.length then "+" else " ").toList := by
    split_ifs <;> decide
  unfold laidDown
  simp only [not_mem_append, hoffset, hbytes, hmark]
  decide

theorem not_mem_numbered {raw : String} (h : '\n' ∉ raw.toList) (row : Nat) :
    '\n' ∉ (numbered row raw).toList := by
  have hnumber := (isCell_toString (row + 1)).isRow.not_mem
  unfold numbered
  simp only [not_mem_append, hnumber, h, not_mem_blanks]
  decide

theorem not_mem_line {raw : String} (h : '\n' ∉ raw.toList) (row : Nat) (entry : Option Entry) :
    '\n' ∉ (line row raw entry).toList := by
  have hnumbered := not_mem_numbered h row
  cases entry with
  | none => exact not_mem_append.2 ⟨not_mem_blanks 19, hnumbered⟩
  | some e =>
    rw [line_some, ← e.laidDown_eq, not_mem_append, not_mem_append]
    exact ⟨⟨not_mem_laidDown e, hnumbered⟩, not_mem_decoded e⟩

end Listing

/-! ### Sources -/

theorem Line.Lays.exists_instruction {symbols : SymbolTable} {line : Line} {out out' : Output}
    {here there : Option Place} (h : line.Lays symbols out here out' there) {m : Mnemonic}
    {args : List String} (hs : line.statement = some (.instruction m args)) :
    ∃ e ops i, out.Lists out' [line] [e] ∧ e.row = line.row ∧ e.kind = .text ∧
      args.mapM Operand.parse = .ok ops ∧ m.StandsFor ops i ∧
      Instruction.bigEndian i.packed <+: e.bytes := by
  cases h with
  | pass _ hp => cases (hp _ hs).1
  | enter _ k hk => cases hs.symm.trans hk
  | put p q s rs bs hs' ho hf hq =>
    obtain rfl := Option.some.inj (hs'.symm.trans hs)
    cases Statement.puts_of_fragment hf with
    | instruction _ _ ops e hk hops hlen he =>
      obtain ⟨i, extra, hi, hbytes, -⟩ := Mnemonic.bytes_of_encodeOperands hlen he
      refine ⟨_, ops, i, lists_put hs ho out _ e.bytes, rfl, hk, hops, hi, extra, ?_⟩
      rw [if_pos (by rw [hk]; rfl), hbytes, i.bytes_eq]
    | nothing _ hn => cases hn

theorem exists_instruction_of_assemble {source : String} {a : Assembly} (h : assemble source = .ok a)
    {line : Line} (hline : line ∈ (Program.ofSource source).lines) {m : Mnemonic}
    {args : List String} (hs : line.statement = some (.instruction m args)) :
    ∃ e ∈ a.listing, ∃ ops i, e.row = line.row ∧ e.kind = .text ∧
      args.mapM Operand.parse = .ok ops ∧ m.StandsFor ops i ∧
      Instruction.bigEndian i.packed <+: e.bytes := by
  obtain ⟨xs, ys, hl⟩ := List.append_of_mem hline
  obtain ⟨_, l, mid, out, -, -, -, -, he, -, -, rfl⟩ := inStep_of_assemble h hl
  obtain ⟨mid', there, hlays, hrest⟩ := Output.emits_cons.1 he
  obtain ⟨e, ops, i, hlists, hrow, hk, hops, hi, hbytes⟩ := hlays.exists_instruction hs
  obtain ⟨es, hafter⟩ := hrest.lists
  refine ⟨e, ?_, ops, i, hrow, hk, hops, hi, hbytes⟩
  show e ∈ out.listing.toList
  rw [hafter.listing, hlists.listing]
  simp

theorem Program.exists_row_of_mem_lines {source : String} {line : Line}
    (h : line ∈ (ofSource source).lines) :
    ∃ raw, (Text.rows source)[line.row]? = some raw ∧ Line.parse line.row raw = .ok line := by
  obtain ⟨i, raw, hraw, hparse⟩ := exists_getElem?_of_mem_lines h
  have hrow := Line.row_of_parse hparse
  rw [Nat.zero_add] at hparse hrow
  rw [hrow]
  exact ⟨raw, hraw, hparse⟩

/-- What printed lines show of a source and of a listing of it. -/
structure Listing.Displays (source : String) (entries : List Entry) (printed : List String) :
    Prop where
  length : printed.length = (Text.rows source).length
  oneLine : ∀ s ∈ printed, '\n' ∉ s.toList
  row : ∀ (row : Nat) (raw : String), (Text.rows source)[row]? = some raw →
    ∃ s, printed[row]? = some s ∧ Prints entries row raw s
  entry : ∀ e ∈ entries, ∃ raw note, (Text.rows source)[e.row]? = some raw ∧
    printed[e.row]? = some (e.shown ++ numbered e.row raw ++ note) ∧ e.Noted note
  /-- The row of an instruction shows what was encoded for it. -/
  instruction : ∀ line ∈ (Program.ofSource source).lines, ∀ m args,
    line.statement = some (.instruction m args) →
    ∃ e ∈ entries, ∃ raw ops i, e.row = line.row ∧
      (Text.rows source)[line.row]? = some raw ∧ Line.parse line.row raw = .ok line ∧
      args.mapM Operand.parse = .ok ops ∧ m.StandsFor ops i ∧
      Instruction.bigEndian i.packed <+: e.bytes ∧
      printed[line.row]? = some (e.shown ++ numbered line.row raw ++ "    ; " ++ i.shown) ∧
      ∀ j : Instruction, j.shown = i.shown → j = i

theorem Listing.render_eq (path source : String) (entries : List Entry) :
    render path source entries =
      "-------------------+------[" ++ path ++ "]" ++
        String.ofList (List.replicate (45 - path.utf8ByteSize) '-') ++ "\n" ++
      String.join ((body source entries).map (· ++ "\n")) := by
  unfold render Text.unlines
  rw [List.map_cons, String.join_cons]
  rfl

/-- The printed listing shows every row and every entry.  If a source is assembled, a heading and one
line for each row of the source are printed, in order.  Each of them tells the number of the row from
one and its text, and beside them where the row's entry begins, its first bytes and whether there are
more, or nothing if the row has no entry.  Every entry is beside its row, and behind a row with an
instruction stand the condition, the opcode and the fields that its entry begins with, which are those
that its mnemonic and its operands stand for. -/
theorem Listing.render_of_assemble {source : String} {a : Assembly} (h : assemble source = .ok a)
    (path : String) :
    ∃ printed, render path source a.listing =
        "-------------------+------[" ++ path ++ "]" ++
          String.ofList (List.replicate (45 - path.utf8ByteSize) '-') ++ "\n" ++
        String.join (printed.map (· ++ "\n")) ∧
      Displays source a.listing printed := by
  have hrows := pairwise_row_listing h
  have hprinted : ∀ (row : Nat) (raw : String), (Text.rows source)[row]? = some raw →
      (body source a.listing)[row]? =
        some (line row raw (a.listing.find? fun e => e.row = row)) := by
    intro row raw hraw
    rw [body_eq hrows, List.getElem?_map, List.getElem?_zipIdx, hraw]
    simp
  have hentry : ∀ e ∈ a.listing, ∀ raw, (Text.rows source)[e.row]? = some raw →
      (body source a.listing)[e.row]? =
        some (e.shown ++ numbered e.row raw ++ decoded e) := by
    intro e he raw hraw
    rw [hprinted e.row raw hraw, (find?_row_eq_some_iff hrows).2 ⟨he, rfl⟩, line_some]
  refine ⟨body source a.listing, render_eq path source a.listing, ?_, ?_, ?_, ?_, ?_⟩
  · rw [body_eq hrows, List.length_map, List.length_zipIdx]
  · intro s hs
    rw [body_eq hrows] at hs
    obtain ⟨⟨raw, row⟩, hmem, rfl⟩ := List.mem_map.1 hs
    exact not_mem_line (Text.not_mem_of_mem_rows (List.fst_mem_of_mem_zipIdx hmem)) row _
  · intro row raw hraw
    exact ⟨_, hprinted row raw hraw, prints_line hrows row raw⟩
  · intro e he
    obtain ⟨line, hline, hrow, -⟩ := exists_line_of_mem_listing h he
    obtain ⟨raw, hraw, -⟩ := Program.exists_row_of_mem_lines hline
    rw [← hrow] at hraw
    exact ⟨raw, _, hraw, hentry e he raw hraw, e.noted_decoded⟩
  · intro line hline m args hs
    obtain ⟨raw, hraw, hparse⟩ := Program.exists_row_of_mem_lines hline
    obtain ⟨e, he, ops, i, hrow, hk, hops, hi, hbytes⟩ := exists_instruction_of_assemble h hline hs
    have hshown := hentry e he raw (hrow ▸ hraw)
    rw [Entry.decoded_of_bytes hk hbytes, hrow, ← String.append_assoc] at hshown
    exact ⟨e, he, raw, ops, i, hrow, hraw, hparse, hops, hi, hbytes, hshown,
      fun j hj => Instruction.shown_injective hj⟩

theorem Listing.render_of_assemble_data_and_jump :
    ∃ (a : Assembly) (printed : List String),
      assemble ".data\nx: .word 1, 2, x\n.text\neqjmp $x ; go\n.end\n?" = .ok a ∧
      render "main.s" ".data\nx: .word 1, 2, x\n.text\neqjmp $x ; go\n.end\n?" a.listing =
        "-------------------+------[main.s]---------------------------------------\n" ++
          String.join (printed.map (· ++ "\n")) ∧
      printed.length = 6 ∧
      printed[1]? = some "[\x1b[32m0000\x1b[39m] 01 00 02 00+|    2: x: .word 1, 2, x" ∧
      printed[2]? = some "                   |    3: .text" ∧
      printed[3]? = some ("[\x1b[32m0000\x1b[39m] 01 E7 FE FF |    4: eqjmp $x ; go    ; " ++
        "\x1b[31meq\x1b[1madd  \x1b[34m\x1b[22m01111 00111\x1b[39m") := by
  obtain ⟨a, h⟩ := Results.exists_of_isSome
    (x := assemble ".data\nx: .word 1, 2, x\n.text\neqjmp $x ; go\n.end\n?") (by decide +kernel)
  have hrows : Text.rows ".data\nx: .word 1, 2, x\n.text\neqjmp $x ; go\n.end\n?" =
      [".data", "x: .word 1, 2, x", ".text", "eqjmp $x ; go", ".end", "?"] := by decide +kernel
  have hline : (⟨3, [], some (.instruction ⟨.equal, .jmp⟩ ["$x"])⟩ : Line) ∈ (Program.ofSource
      ".data\nx: .word 1, 2, x\n.text\neqjmp $x ; go\n.end\n?").lines := by decide +kernel
  have hparse : ["$x"].mapM Operand.parse = .ok [.relative "x"] := by decide +kernel
  have hlisting : a.listing =
      [⟨1, .data, 0, [1, 0, 2, 0, 0, 0]⟩, ⟨3, .text, 0, [1, 0xE7, 0xFE, 0xFF]⟩] := by
    have hmap : (assemble ".data\nx: .word 1, 2, x\n.text\neqjmp $x ; go\n.end\n?").map
        Assembly.listing =
          .ok [⟨1, .data, 0, [1, 0, 2, 0, 0, 0]⟩, ⟨3, .text, 0, [1, 0xE7, 0xFE, 0xFF]⟩] := by
      decide +kernel
    rw [h] at hmap
    exact Except.ok.inj hmap
  obtain ⟨printed, hrender, hdisplays⟩ := render_of_assemble h "main.s"
  have hlength := hdisplays.length
  have hrow := hdisplays.row
  have hinstruction := hdisplays.instruction _ hline _ _ rfl
  rw [hlisting] at hrow hinstruction
  rw [hrows] at hlength hrow hinstruction
  refine ⟨a, printed, h, hrender, hlength, ?_, ?_, ?_⟩
  · obtain ⟨s, hs, hprints⟩ := hrow 1 _ rfl
    rw [hs]
    cases hprints with
    | bare hnone => exact absurd rfl (hnone _ List.mem_cons_self)
    | entry he herow hnote =>
      rcases List.mem_pair.1 he with rfl | rfl
      · cases hnote with
        | word hk _ => cases hk
        | nothing _ => decide +kernel
      · cases herow
  · obtain ⟨s, hs, hprints⟩ := hrow 2 _ rfl
    rw [hs]
    cases hprints with
    | bare _ => decide +kernel
    | entry he herow _ => rcases List.mem_pair.1 he with rfl | rfl <;> cases herow
  · obtain ⟨e, he, raw, ops, i, herow, hraw, -, hops, hi, -, hprinted, -⟩ := hinstruction
    obtain rfl : "eqjmp $x ; go" = raw := Option.some.inj hraw
    obtain rfl : [.relative "x"] = ops := Except.ok.inj (hparse.symm.trans hops)
    rw [hprinted]
    rcases List.mem_pair.1 he with rfl | rfl
    · cases herow
    · cases hi with
      | jumpBy => decide +kernel
      | jumpTo _ hne _ => exact absurd rfl (hne "x")

end SS16
