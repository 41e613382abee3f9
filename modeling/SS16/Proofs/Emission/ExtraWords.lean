import SS16.Proofs.Emission.Entries
import SS16.Proofs.InstructionWord
import SS16.Proofs.OperandGrammar

/-!
# SS16.Proofs.Emission.ExtraWords — the words behind an instruction word

An operand that is no plain register asks for an extra word, which a number or the entry of a name
fills.  Main statements: `SymbolTable.target_eq_ok_iff`, `ExtraWord.Holds.encode_eq`,
`Operand.mapM_encode_eq_error_iff` (operands that are read can only fail for their names) and
`Operand.Trails.exists_relocation`.
-/

namespace SS16

/-! ### Names and extra words -/

/-- Whether a name has no entry, or a local one without a definition. -/
def SymbolTable.Lacks (symbols : SymbolTable) (n : String) : Prop :=
  ∀ s, symbols.get? n = some s → s.binding = .internal ∧ s.home = none

theorem SymbolTable.target_eq_error_iff {symbols : SymbolTable} {n : String} {f : Fault} :
    symbols.target n = .error f ↔ symbols.Lacks n ∧ f = .missingSymbol n := by
  unfold target Lacks
  cases hs : symbols.get? n with
  | none => simp [eq_comm]
  | some s =>
    dsimp only
    cases hb : s.binding <;> cases hk : s.home <;> simp [Symbol.isGlobal, hb, hk, eq_comm]

/-- The entries that local symbols wait for: those of their sections. -/
def Section.entries : List (Section × UInt16) := [(text, 1), (data, 2), (rodata, 3), (bss, 4)]

theorem Section.mem_entries_iff {k : Section} {e : UInt16} : (k, e) ∈ entries ↔ k.number = e := by
  cases k <;> simp [entries, number, eq_comm]

/-- What a name contributes to a word, and the number of the entry that the word waits for: nothing
and its own if it is global, and else its offset and that of its section. -/
inductive SymbolTable.Refers (symbols : SymbolTable) (n : String) : UInt16 → UInt16 → Prop
  | global {s : Symbol} (hs : symbols.get? n = some s) (hg : s.binding = .global) :
    Refers symbols n 0 s.number
  | internal {s : Symbol} {k : Section} {e : UInt16} (hs : symbols.get? n = some s)
    (hi : s.binding = .internal) (hk : s.home = some k) (he : (k, e) ∈ Section.entries) :
    Refers symbols n s.offset e

theorem SymbolTable.target_eq_ok_iff {symbols : SymbolTable} {n : String} {t : Target} :
    symbols.target n = .ok t ↔ symbols.Refers n t.value t.entry := by
  constructor
  · intro h
    obtain ⟨s, hs, ⟨hg, rfl⟩ | ⟨hg, k, hk, rfl⟩⟩ := target_cases h
    · exact .global hs (by simpa [Symbol.isGlobal] using hg)
    · refine .internal hs ?_ hk (Section.mem_entries_iff.2 rfl)
      cases hb : s.binding with
      | internal => rfl
      | global => simp [Symbol.isGlobal, hb] at hg
  · obtain ⟨v, e⟩ := t
    rintro (⟨hs, hg⟩ | ⟨hs, hi, hk, he⟩)
    · exact target_of_isGlobal hs (by simp [Symbol.isGlobal, hg])
    · obtain rfl := Section.mem_entries_iff.1 he
      exact target_of_home hs (by simp [Symbol.isGlobal, hi]) hk

/-- The number that an extra word holds in an instruction at an address, and the relocation that
waits for it, two bytes on.  A distance counts from two bytes past the word. -/
inductive ExtraWord.Holds (symbols : SymbolTable) (loc : UInt16) :
    ExtraWord → UInt16 → Option Relocation → Prop
  | literal {l : Literal} {v : UInt16} (h : Literal.Holds v.toNat l) :
    Holds symbols loc (.literal l) v none
  | absolute {n : String} {v e : UInt16} (h : symbols.Refers n v e) :
    Holds symbols loc (.reference .absolute n) v (some ⟨loc + 2, .absolute, e⟩)
  | relative {n : String} {v e : UInt16} (h : symbols.Refers n v e) :
    Holds symbols loc (.reference .relative n) (v - 2) (some ⟨loc + 2, .relative, e⟩)

namespace ExtraWord

variable {symbols : SymbolTable} {loc : UInt16} {w : ExtraWord}

theorem Holds.encode_eq {v : UInt16} {r : Option Relocation} (h : w.Holds symbols loc v r)
    (hw : w.WellFormed) : w.encode symbols loc = .ok ⟨[v.toUInt8, (v >>> 8).toUInt8], r⟩ := by
  rw [← LittleEndian.word_eq]
  cases h with
  | literal hl => exact Results.map_eq_ok_iff.2 ⟨_, Literal.bytes_of_holds hw hl, rfl⟩
  | absolute h | relative h =>
    exact Results.map_eq_ok_iff.2 ⟨⟨_, _⟩, SymbolTable.target_eq_ok_iff.2 h, rfl⟩

theorem exists_holds (hl : ∀ l, w = .literal l → ∃ n < UInt16.size, Literal.Holds n l)
    (hn : ∀ kind n, w = .reference kind n → ¬ symbols.Lacks n) (loc : UInt16) :
    ∃ v r, w.Holds symbols loc v r := by
  cases w with
  | literal l =>
    obtain ⟨n, hlt, hholds⟩ := hl l rfl
    refine ⟨UInt16.ofNat n, none, .literal ?_⟩
    rwa [UInt16.toNat_ofNat_of_lt' hlt]
  | reference kind n =>
    cases ht : symbols.target n with
    | error f => exact absurd (SymbolTable.target_eq_error_iff.1 ht).1 (hn kind n rfl)
    | ok t =>
      have hrefers := SymbolTable.target_eq_ok_iff.1 ht
      cases kind with
      | absolute => exact ⟨_, _, .absolute hrefers⟩
      | relative => exact ⟨_, _, .relative hrefers⟩

end ExtraWord

/-! ### Operands -/

namespace Operand

def IsPlain (op : Operand) : Prop := ∃ r, op = register r ∨ op = pointer r

def IsValue (op : Operand) : Prop :=
  (∃ l, op = immediate l) ∨ (∃ n, op = address n) ∨ ∃ n, op = relative n

/-- Whether the operand speaks of no lacking name. -/
def Resolved (symbols : SymbolTable) (op : Operand) : Prop :=
  ∀ n ∈ op.named, ¬ symbols.Lacks n

def TwoWide (ops : List Operand) : Prop :=
  ∃ op₁ op₂, ops = [op₁, op₂] ∧ ¬ op₁.IsPlain ∧ ¬ op₂.IsPlain

theorem isPlain_iff {op : Operand} : op.IsPlain ↔ op.extra? = none := by
  unfold IsPlain
  cases op with
  | indexed r d => cases d <;> simp [extra?]
  | _ => simp [extra?]

theorem isValue_iff {op : Operand} : op.IsValue ↔ op.isImmediate := by
  unfold IsValue
  cases op <;> simp [isImmediate]

theorem twoWide_iff {ops : List Operand} (h : ops.length ≤ 2) :
    TwoWide ops ↔ 1 < (ops.filterMap extra?).length := by
  unfold TwoWide
  simp only [isPlain_iff]
  match ops, h with
  | [], _ => simp
  | [op], _ => cases ho : op.extra? <;> simp [ho]
  | [op₁, op₂], _ => cases h₁ : op₁.extra? <;> cases h₂ : op₂.extra? <;> simp [h₁, h₂]

variable {symbols : SymbolTable} {loc : UInt16} {op : Operand} {token : String}

/-- An operand that is read can only fail to be encoded for the name that it speaks of. -/
theorem encode_eq_error_iff (h : parse token = .ok op) {f : Fault} :
    op.encode symbols loc = .error f ↔
      ∃ n ∈ op.named, symbols.Lacks n ∧ f = .missingSymbol n := by
  simp only [mem_named_iff]
  unfold encode symbol?
  cases hw : op.extra? with
  | none => simp
  | some w =>
    refine Results.map_eq_error_iff.trans ?_
    cases w with
    | literal l =>
      have hok : ∃ e, (ExtraWord.literal l).encode symbols loc = .ok e :=
        ExtraWord.exists_encode (wellFormed_of_parse h hw) (fun kind n hn => by cases hn) loc
      obtain ⟨e, he⟩ := hok
      simp [he]
    | reference kind n =>
      refine Results.map_eq_error_iff.trans (SymbolTable.target_eq_error_iff.trans ?_)
      simp

theorem exists_encode_iff (h : parse token = .ok op) :
    (∃ e, op.encode symbols loc = .ok e) ↔ op.Resolved symbols := by
  constructor
  · rintro ⟨e, he⟩ n hn hlacks
    cases he.symm.trans ((encode_eq_error_iff h).2 ⟨n, hn, hlacks, rfl⟩)
  · intro hr
    cases he : op.encode symbols loc with
    | ok e => exact ⟨e, rfl⟩
    | error f =>
      obtain ⟨n, hn, hlacks, -⟩ := (encode_eq_error_iff h).1 he
      exact absurd hlacks (hr n hn)

section Several

variable {args : List String} {ops : List Operand}
  (hread : List.Forall₂ (fun arg op => parse arg = .ok op) args ops)
include hread

theorem exists_parse_of_mem (hop : op ∈ ops) : ∃ arg, parse arg = .ok op := by
  obtain ⟨arg, -, harg⟩ := Results.exists_of_mem_forall₂ hread hop
  exact ⟨arg, harg⟩

theorem mapM_encode_eq_error_iff (symbols : SymbolTable) (loc : UInt16) {f : Fault} :
    ops.mapM (encode symbols loc) = .error f ↔ ∃ before op after n, ops = before ++ op :: after ∧
      (∀ o ∈ before, o.Resolved symbols) ∧ n ∈ op.named ∧ symbols.Lacks n ∧
      f = .missingSymbol n := by
  rw [Results.mapM_eq_error_iff]
  constructor
  · rintro ⟨before, op, after, rfl, hbefore, hf⟩
    obtain ⟨arg, harg⟩ := exists_parse_of_mem hread (List.mem_append_right before List.mem_cons_self)
    obtain ⟨n, hn, hlacks, rfl⟩ := (encode_eq_error_iff harg).1 hf
    refine ⟨before, op, after, n, rfl, fun o ho => ?_, hn, hlacks, rfl⟩
    obtain ⟨arg, harg⟩ := exists_parse_of_mem hread (List.mem_append_left _ ho)
    exact (exists_encode_iff harg).1 (hbefore o ho)
  · rintro ⟨before, op, after, n, rfl, hbefore, hn, hlacks, rfl⟩
    obtain ⟨arg, harg⟩ := exists_parse_of_mem hread (List.mem_append_right before List.mem_cons_self)
    refine ⟨before, op, after, rfl, fun o ho => ?_, ?_⟩
    · obtain ⟨arg, harg⟩ := exists_parse_of_mem hread (List.mem_append_left _ ho)
      exact (exists_encode_iff harg).2 (hbefore o ho)
    · exact (encode_eq_error_iff harg).2 ⟨n, hn, hlacks, rfl⟩

theorem exists_mapM_encode_iff (symbols : SymbolTable) (loc : UInt16) :
    (∃ es, ops.mapM (encode symbols loc) = .ok es) ↔ ∀ op ∈ ops, op.Resolved symbols := by
  constructor
  · rintro ⟨es, hes⟩ op hop
    obtain ⟨e, -, he⟩ := Results.exists_of_mem_forall₂ (Results.mapM_eq_ok_iff.1 hes).flip hop
    obtain ⟨arg, harg⟩ := exists_parse_of_mem hread hop
    exact (exists_encode_iff harg).1 ⟨e, he⟩
  · intro hr
    cases hes : ops.mapM (encode symbols loc) with
    | ok es => exact ⟨es, rfl⟩
    | error f =>
      obtain ⟨before, op, after, n, rfl, -, hn, hlacks, -⟩ :=
        (mapM_encode_eq_error_iff hread symbols loc).1 hes
      exact absurd hlacks (hr op (List.mem_append_right before List.mem_cons_self) n hn)

end Several

/-- What the extra words of operands add to an instruction: nothing, or the word of the one operand
that wants it. -/
inductive Trails (symbols : SymbolTable) (loc : UInt16) :
    List Operand → List UInt8 → Option Relocation → Prop
  | nothing {ops : List Operand} (h : ∀ op ∈ ops, op.IsPlain) : Trails symbols loc ops [] none
  | word {ops : List Operand} {op : Operand} {w : ExtraWord} {v : UInt16} {r : Option Relocation}
    (hop : op ∈ ops) (hw : op.Wants w) (hv : w.Holds symbols loc v r) :
    Trails symbols loc ops [v.toUInt8, (v >>> 8).toUInt8] r

theorem eq_of_not_twoWide {ops : List Operand} {op' : Operand} (hlen : ops.length ≤ 2)
    (hone : ¬ TwoWide ops) (hop : op ∈ ops) (hop' : op' ∈ ops) (h : ¬ op.IsPlain)
    (h' : ¬ op'.IsPlain) : op = op' := by
  match ops, hlen with
  | [], _ => cases hop
  | [_], _ => exact (List.mem_singleton.1 hop).trans (List.mem_singleton.1 hop').symm
  | [op₁, op₂], _ =>
    rcases List.mem_pair.1 hop with rfl | rfl <;> rcases List.mem_pair.1 hop' with rfl | rfl
    · rfl
    · exact absurd ⟨_, _, rfl, h, h'⟩ hone
    · exact absurd ⟨_, _, rfl, h', h⟩ hone
    · rfl

namespace Trails

variable {ops : List Operand} {extra : List UInt8} {r : Option Relocation}

theorem relocation_eq_none (h : Trails symbols loc ops extra r)
    (hn : ∀ op ∈ ops, op.named = []) : r = none := by
  cases h with
  | nothing _ => rfl
  | word hop hw hv =>
    have hnone := hn _ hop
    cases hv with
    | literal _ => rfl
    | absolute _ | relative _ => cases hw <;> cases hnone

theorem exists_relocation (h : Trails symbols loc ops extra r) (hlen : ops.length ≤ 2)
    (hone : ¬ TwoWide ops) (hop : op ∈ ops) {n : String} (hn : n ∈ op.named) :
    ∃ kind entry, r = some ⟨loc + 2, kind, entry⟩ := by
  obtain ⟨kind, hw⟩ := symbol?_eq_some (mem_named_iff.1 hn)
  have hwide : ¬ op.IsPlain := by simp [isPlain_iff, hw]
  cases h with
  | nothing hplain => exact absurd (hplain op hop) hwide
  | @word op' w' _ _ hop' hw' hv =>
    rw [wants_iff] at hw'
    have hwide' : ¬ op'.IsPlain := by simp [isPlain_iff, hw']
    obtain rfl := eq_of_not_twoWide hlen hone hop hop' hwide hwide'
    obtain rfl : _ = w' := Option.some.inj (hw.symm.trans hw')
    cases hv with
    | absolute _ => exact ⟨_, _, rfl⟩
    | relative _ => exact ⟨_, _, rfl⟩

end Trails

end Operand

end SS16
