import Mathlib.Logic.Equiv.Basic
import SS16.Assembly
import SS16.Proofs.Renaming.Emission
import SS16.Proofs.Renaming.Text

/-!
# SS16.Proofs.Renaming — names do not matter for code

A source with other names is assembled to the same sections, bytes, relocations and listing, and to
the same symbol table but for the names in it.  If it is refused, then in the same row and for the
same kind of fault.  Main statement: `assemble_rename`.
-/

namespace SS16

namespace Renaming

/-- What comes of a program and of the program with other names. -/
inductive Alike (ρ : Renaming) : Except Located Assembly → Except Located Assembly → Prop
  | refused (l : Located) : Alike ρ (.error l) (.error (ρ.located l))
  | assembled (sections : List Extent) (symbols symbols' : SymbolTable) (out : Output)
    (h : ρ.Tables symbols symbols') :
    Alike ρ (.ok (.ofOutput sections symbols out)) (.ok (.ofOutput sections symbols' out))

variable {ρ : Renaming}

theorem assemble_program {p : Program} (hp : ∀ x ∈ p.fault, ρ.fault x.2 = x.2) :
    ρ.Alike p.assemble (ρ.program p).assemble := by
  obtain ⟨htables, hsections⟩ := layout_program hp Tables.empty
  have hemit := emit_program hp htables .fresh
  unfold Program.assemble
  dsimp only
  rw [hsections, hemit]
  cases (p.layout .empty).sections with
  | error l => exact .refused l
  | ok sections =>
    generalize p.emit (p.layout .empty).symbols .fresh = x
    obtain ⟨out, fault⟩ := x
    cases fault with
    | some l => exact .refused l
    | none => exact .assembled sections _ _ out htables

def exchange (m n : String) (hm : Identifier.isValid m) (hn : Identifier.isValid n)
    (hm' : m ∉ Register.names) (hn' : n ∉ Register.names) : Renaming where
  name := Equiv.swap m n
  isValid_name k hk := by
    rw [Equiv.swap_apply_def]
    split_ifs
    · exact hn
    · exact hm
    · exact hk
  name_inj k l _ _ h := (Equiv.swap m n).injective h
  name_register k hk :=
    Equiv.swap_apply_of_ne_of_ne (fun he => hm' (he ▸ hk)) fun he => hn' (he ▸ hk)

end Renaming

/-- A source with other names is assembled to the same object but for the names of its symbols, or
refused in the same row for the same kind of fault. -/
theorem assemble_rename (ρ : Renaming) (source : String) :
    (∀ a, assemble source = .ok a →
      ∃ b, assemble (ρ.rename source) = .ok b ∧ b.object.sections = a.object.sections ∧
        b.object.code = a.object.code ∧ b.object.relocations = a.object.relocations ∧
        b.listing = a.listing ∧
        b.object.symbols.toList = a.object.symbols.toList.map ρ.symbol) ∧
    ∀ l, assemble source = .error l →
      ∃ l', assemble (ρ.rename source) = .error l' ∧ l'.row = l.row ∧
        l'.fault = ρ.fault l.fault := by
  have halike : ρ.Alike (assemble source) (assemble (ρ.rename source)) := by
    unfold assemble
    rw [ρ.ofSource_rename]
    exact Renaming.assemble_program fun x hx => ρ.fault_of_ofRows hx
  generalize assemble source = x at halike ⊢
  generalize assemble (ρ.rename source) = y at halike ⊢
  cases halike with
  | refused l =>
    refine ⟨nofun, fun l' h => ?_⟩
    cases h
    exact ⟨_, rfl, rfl, rfl⟩
  | assembled sections symbols symbols' out h =>
    refine ⟨fun a ha => ?_, nofun⟩
    cases ha
    exact ⟨_, rfl, rfl, rfl, rfl, rfl, h⟩

theorem assemble_rename_exchange :
    (∃ a b, assemble ".text\nf: call g ; g\ng: jmp $f\n.global f\n.word g" = .ok a ∧
      assemble ".text\ng: call f ; g\nf: jmp $g\n.global g\n.word f" = .ok b ∧
      b.object.code = a.object.code ∧ b.object.relocations = a.object.relocations ∧
      b.object.symbols ≠ a.object.symbols) ∧
    ∃ l, assemble ".text\ncall g" = .error l ∧ l.row = some 1 ∧ l.fault = .undefinedSymbol "g" := by
  let ρ := Renaming.exchange "f" "g" (by decide) (by decide) (by decide) (by decide)
  constructor
  · have hrename : ρ.rename ".text\nf: call g ; g\ng: jmp $f\n.global f\n.word g" =
        ".text\ng: call f ; g\nf: jmp $g\n.global g\n.word f" := by decide +kernel
    have hmoved : (assemble ".text\nf: call g ; g\ng: jmp $f\n.global f\n.word g").toOption.all
        (fun a => a.object.symbols.toList.map ρ.symbol ≠ a.object.symbols.toList) := by
      decide +kernel
    obtain ⟨a, ha⟩ := Results.exists_of_isSome
      (x := assemble ".text\nf: call g ; g\ng: jmp $f\n.global f\n.word g") (by decide +kernel)
    obtain ⟨b, hb, -, hcode, hrelocations, -, hsymbols⟩ := (assemble_rename ρ _).1 a ha
    rw [hrename] at hb
    rw [ha] at hmoved
    refine ⟨a, b, ha, hb, hcode, hrelocations, fun he => of_decide_eq_true hmoved ?_⟩
    rw [← hsymbols, he]
  · have hrename : ρ.rename ".text\ncall f" = ".text\ncall g" := by decide +kernel
    have hrefused : assemble ".text\ncall f" = .error ⟨some 1, .undefinedSymbol "f"⟩ := by
      decide +kernel
    obtain ⟨l, hl, hrow, hfault⟩ := (assemble_rename ρ _).2 _ hrefused
    rw [hrename] at hl
    have hname : ρ.fault (.undefinedSymbol "f") = .undefinedSymbol "g" := by decide +kernel
    exact ⟨l, hl, hrow, hfault.trans hname⟩

end SS16
