import SS16.Proofs.Emission.Relocations

/-!
# SS16.Proofs.Linking — what relocations come to when a program is linked

A linking places the sections and gives addresses to the symbols that a program leaves undefined.
Main statement: `patch_eq_meaning_of_assemble` (a placeholder and its relocation always come to what
the reference means).
-/

namespace SS16

/-- Where sections are placed and what undefined symbols stand for. -/
structure Linking where
  base : Section → UInt16
  external : String → UInt16

namespace Linking

def address (L : Linking) (s : Symbol) : UInt16 :=
  match s.home with
  | some k => L.base k + s.offset
  | none => L.external s.name

/-- What a relocation in a section makes of a placeholder, given the entry that it waits for. -/
def patch (L : Linking) (k : Section) (r : Relocation) (entry : Symbol) (placeholder : Nat) :
    UInt16 :=
  match r.kind with
  | .absolute => UInt16.ofNat placeholder + L.address entry
  | .relative => UInt16.ofNat placeholder + L.address entry - (L.base k + r.offset)

/-- What a reference in a section means: the address of its symbol, or the distance to it from the
end of the instruction. -/
def meaning (L : Linking) (k : Section) (ref : Reference) (s : Symbol) : UInt16 :=
  match ref.kind with
  | .absolute => L.address s
  | .relative => L.address s - (L.base k + ref.stop)

theorem address_ofSection (L : Linking) (k : Section) : L.address (.ofSection k) = L.base k :=
  UInt16.add_zero _

theorem address_of_home {L : Linking} {s : Symbol} {k : Section} (h : s.home = some k) :
    L.address s = L.base k + s.offset := by
  unfold address
  rw [h]

/-- A placeholder with the addend of a target comes to what the reference means, if the target and
the address of its entry come to the address of the symbol. -/
theorem patch_eq_meaning {L : Linking} {k : Section} {bytes : List UInt8} {ref : Reference}
    {r : Relocation} {t : Target} {entry s : Symbol} (hkind : r.kind = ref.kind)
    (hoffset : r.offset = ref.offset) (hstop : ref.kind = .relative → ref.stop = ref.offset + 2)
    (hvalue : LittleEndian.value (ref.slot bytes) = (ref.kind.addend t.value).toNat)
    (ht : t.value + L.address entry = L.address s) :
    L.patch k r entry (LittleEndian.value (ref.slot bytes)) = L.meaning k ref s := by
  rw [hvalue]
  unfold patch meaning
  rw [UInt16.ofNat_toNat, hkind, hoffset, ← ht]
  cases hk : ref.kind with
  | absolute => rfl
  | relative =>
    rw [hstop hk]
    show t.value - 2 + L.address entry - (L.base k + ref.offset) =
      t.value + L.address entry - (L.base k + (ref.offset + 2))
    grind

end Linking

/-- A target stands for the address of its symbol: the offset in the section's entry if the symbol
is local, and the symbol's own entry if it is global. -/
theorem Layout.WellFormed.entry_of_target {l : Layout} (hw : l.WellFormed) {n : String} {t : Target}
    (ht : l.symbols.target n = .ok t) :
    ∃ s entry, l.symbols.get? n = some s ∧ entry ∈ l.symbols.toList ∧ entry.number = t.entry ∧
      ∀ L : Linking, t.value + L.address entry = L.address s := by
  unfold SymbolTable.target at ht
  cases hs : l.symbols.get? n with
  | none =>
    rw [hs] at ht
    cases ht
  | some s =>
    rw [hs] at ht
    dsimp only at ht
    have hmem := SymbolTable.mem_of_get? hs
    split_ifs at ht with hg
    · cases ht
      exact ⟨s, s, rfl, hmem, rfl, fun L => UInt16.zero_add _⟩
    · cases hk : s.home with
      | none =>
        rw [hk] at ht
        cases ht
      | some k =>
        rw [hk] at ht
        cases ht
        have hsection := hw.get? k (hw.home s hmem k hk)
        refine ⟨s, .ofSection k, rfl, SymbolTable.mem_of_get? hsection, rfl, fun L => ?_⟩
        rw [L.address_ofSection, Linking.address_of_home hk, UInt16.add_comm]

theorem Reference.Held.entry {l : Layout} {bytes : List UInt8} {ref : Reference} {r : Relocation}
    (h : ref.Held l.symbols bytes r) (hw : l.WellFormed) (hnum : l.Numbered)
    (hlen : l.symbols.users.length ≤ 65531) :
    ∃ (t : Target) (s entry : Symbol), l.symbols.get? ref.name = some s ∧
      entry ∈ l.symbols.toList ∧ entry.number = r.entry ∧
      (∀ e ∈ l.symbols.toList, e.number = r.entry → e = entry) ∧
      LittleEndian.value (ref.slot bytes) = (ref.kind.addend t.value).toNat ∧
      ∀ L : Linking, t.value + L.address entry = L.address s := by
  obtain ⟨t, ht, hentry, hvalue⟩ := h.target
  obtain ⟨s, entry, hs, hmem, hnumber, haddress⟩ := hw.entry_of_target ht
  refine ⟨t, s, entry, hs, hmem, hnumber.trans hentry.symm, ?_, hvalue, haddress⟩
  intro e he hen
  exact hnum.eq_of_number hw hlen he hmem (hen.trans (hentry.trans hnumber.symm))

theorem held_of_assemble {source : String} {a : Assembly} (h : assemble source = .ok a) :
    ∃ l, (Layout.start .empty).Takes (Program.ofSource source).steps l ∧ l.WellFormed ∧
      a.object.symbols = l.symbols ∧ ∀ k, List.Forall₂
        (Reference.Held l.symbols (a.object.contents k)) ((Program.ofSource source).references k)
        (a.object.relocations.get k) := by
  obtain ⟨l, out, there, ht, hf, -, he, rfl⟩ := Program.assemble_eq_ok_iff.1 h
  have hsteps := Program.takes_steps_iff.2 ⟨ht, hf⟩
  have hw := Program.wellFormed_of_takes hsteps
  refine ⟨l, hsteps, hw, rfl, fun k => ?_⟩
  obtain ⟨bs, rs, -, hrelocations, hheld⟩ :=
    Output.Emits.held (Layout.inStep_start .empty) hw.nodup ht he k
  have hall : out.relocations.get k = rs := by
    rw [hrelocations]
    exact List.nil_append rs
  show List.Forall₂ (Reference.Held l.symbols (out.code.get k)) _ (out.relocations.get k)
  rw [hall]
  exact hheld

/-- A placeholder and its relocation always come to what the reference means.  In a source that is
assembled and has at most 65531 names, each section has one relocation for each operand and element
that speaks of a symbol, in source order, at the operand's placeholder.  It waits for exactly one
entry of the symbol table, and wherever the sections are placed, adding the entry's address to the
placeholder gives the address of the symbol, or its distance from the end of the instruction. -/
theorem patch_eq_meaning_of_assemble {source : String} {a : Assembly}
    (h : assemble source = .ok a)
    (hnames : (Program.ofSource source).names.toFinset.card ≤ 65531) (k : Section) :
    List.Forall₂ (fun (ref : Reference) (r : Relocation) =>
        r.offset = ref.offset ∧ r.kind = ref.kind ∧
        (ref.slot (a.object.contents k)).length = ref.size ∧
        ∃ s entry, a.object.symbols.get? ref.name = some s ∧
          entry ∈ a.object.symbols.toList ∧ entry.number = r.entry ∧
          (∀ e ∈ a.object.symbols.toList, e.number = r.entry → e = entry) ∧
          ∀ L : Linking, L.patch k r entry (LittleEndian.value (ref.slot (a.object.contents k))) =
            L.meaning k ref s)
      ((Program.ofSource source).references k) (a.object.relocations.get k) := by
  obtain ⟨l, ht, hw, hsymbols, hheld⟩ := held_of_assemble h
  have hnum := Program.numbered_of_takes ht
  rw [← Program.length_users_of_takes ht] at hnames
  have hstop : ∀ ref ∈ (Program.ofSource source).references k,
      ref.kind = .relative → ref.stop = ref.offset + 2 :=
    fun ref href hr => Program.stop_of_mem_references href hr
  refine ((List.forall₂_and_left _ _).2 ⟨hstop, hheld k⟩).imp ?_
  rintro ref r ⟨hstop, hr⟩
  obtain ⟨t, s, entry, hs, hmem, hnumber, honly, hvalue, haddress⟩ := hr.entry hw hnum hnames
  rw [hsymbols]
  refine ⟨hr.offset, hr.kind, hr.length, s, entry, hs, hmem, hnumber, honly, fun L => ?_⟩
  exact Linking.patch_eq_meaning hr.kind hr.offset hstop hvalue (haddress L)

theorem patch_eq_meaning_of_assemble_forward_label :
    ∃ a, assemble ".text\nmov r1, $x\n.data\nx: .long x, 7" = .ok a ∧
      (a.object.relocations.get .text).length = 1 ∧
      (a.object.relocations.get .data).length = 1 := by
  obtain ⟨a, h⟩ := Results.exists_of_isSome
    (x := assemble ".text\nmov r1, $x\n.data\nx: .long x, 7") (by decide +kernel)
  have hall := patch_eq_meaning_of_assemble h (by decide +kernel)
  refine ⟨a, h, ?_, ?_⟩
  · rw [← (hall .text).length_eq]
    decide +kernel
  · rw [← (hall .data).length_eq]
    decide +kernel

end SS16
