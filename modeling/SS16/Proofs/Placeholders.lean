import SS16.Proofs.Linking

/-!
# SS16.Proofs.Placeholders — where relocations patch

The placeholders of a section lie one behind the other inside its contents, and each relocation
starts at one.  A linker patches 16 bits, which is what a placeholder has unless it is an element of
`.char`.  Main statements: `Output.Emits.spaced` and `placeholders_of_assemble`.
-/

namespace SS16

namespace Reference

/-- Placeholders that lie one behind the other between two addresses. -/
inductive Spaced : Nat → List Reference → Nat → Prop
  | nil {start stop : Nat} (h : start ≤ stop) : Spaced start [] stop
  | cons {start stop : Nat} {ref : Reference} {refs : List Reference}
    (h : start ≤ ref.offset.toNat) (rest : Spaced (ref.offset.toNat + ref.size) refs stop) :
    Spaced start (ref :: refs) stop

namespace Spaced

variable {start stop : Nat} {refs : List Reference}

theorem le (h : Spaced start refs stop) : start ≤ stop := by
  induction h with
  | nil h => exact h
  | cons h _ ih => omega

theorem of_le_start (h : Spaced start refs stop) {first : Nat} (hle : first ≤ start) :
    Spaced first refs stop := by
  cases h with
  | nil h => exact .nil (hle.trans h)
  | cons h rest => exact .cons (hle.trans h) rest

theorem append {mid : Nat} {more : List Reference} (h : Spaced start refs mid)
    (h' : Spaced mid more stop) : Spaced start (refs ++ more) stop := by
  induction h with
  | nil h => exact h'.of_le_start h
  | cons h _ ih => exact .cons h (ih h')

theorem bounds (h : Spaced start refs stop) {ref : Reference} (href : ref ∈ refs) :
    start ≤ ref.offset.toNat ∧ ref.offset.toNat + ref.size ≤ stop := by
  induction h with
  | nil h => cases href
  | cons h rest ih =>
    rcases List.mem_cons.1 href with rfl | href
    · exact ⟨h, rest.le⟩
    · have := ih href
      omega

theorem pairwise (h : Spaced start refs stop) :
    refs.Pairwise fun ref next => ref.offset.toNat + ref.size ≤ next.offset.toNat := by
  induction h with
  | nil h => exact .nil
  | cons h rest ih => exact .cons (fun next hnext => (rest.bounds hnext).1) ih

end Spaced

end Reference

/-! ### Placeholders of a statement -/

theorem Width.spaced_references {w : Width} {loc : UInt16} {args : List String} {i : Nat}
    (hfit : loc.toNat + (i + args.length) * w.size < UInt16.size) :
    Reference.Spaced (loc.toNat + i * w.size) (w.references loc args i)
      (loc.toNat + (i + args.length) * w.size) := by
  induction args generalizing i with
  | nil => exact .nil le_rfl
  | cons arg args ih =>
    have hcount : i + (args.length + 1) = i + 1 + args.length := by omega
    rw [List.length_cons, hcount] at hfit ⊢
    have hrest := ih hfit
    have hnext : (i + 1) * w.size = i * w.size + w.size := Nat.succ_mul i w.size
    have hle : (i + 1) * w.size ≤ (i + 1 + args.length) * w.size :=
      Nat.mul_le_mul_right w.size (Nat.le_add_right _ _)
    have hloc : (loc + UInt16.ofNat (i * w.size)).toNat = loc.toNat + i * w.size :=
      toNat_add_ofNat (by omega)
    rw [references_cons, reference?]
    split_ifs
    · exact hrest.of_le_start (by omega)
    · refine .cons hloc.ge ?_
      show Reference.Spaced ((loc + UInt16.ofNat (i * w.size)).toNat + w.size) _ _
      rw [hloc, Nat.add_assoc, ← hnext]
      exact hrest

/-- The placeholder of an instruction is its extra word. -/
theorem Operand.spaced_references {m : Mnemonic} {symbols : SymbolTable} {loc : UInt16}
    {ops : List Operand} {e : EncodedInstruction} (hlen : ops.length = m.operation.arity)
    (h : m.encodeOperands symbols loc ops = .ok e)
    (hfit : loc.toNat + e.bytes.length < UInt16.size) :
    Reference.Spaced loc.toNat (Operand.references loc ops) (loc.toNat + e.bytes.length) := by
  obtain ⟨word, ews, hwords, hone, hword, hbytes, -⟩ := Mnemonic.words_of_encodeOperands hlen h
  rw [hbytes, List.length_append, hword] at hfit ⊢
  rw [Operand.references_eq]
  generalize loc + UInt16.ofNat (Operand.instructionSize ops) = stop
  generalize ops.filterMap Operand.extra? = ws at hwords
  cases hwords with
  | nil => exact .nil (Nat.le_add_right _ _)
  | @cons w ew ws ews hw hrest =>
    obtain rfl : ews = [] := List.length_eq_zero_iff.1 (by simpa using hone)
    obtain rfl : ws = [] := List.forall₂_nil_right_iff.1 hrest
    rw [List.flatMap_singleton, ExtraWord.length_of_encode hw] at hfit ⊢
    cases w with
    | literal l => exact .nil (Nat.le_add_right _ _)
    | reference kind name =>
      have hloc : (loc + 2).toNat = loc.toNat + 2 := toNat_add_ofNat (n := 2) (by omega)
      refine .cons (by show loc.toNat ≤ (loc + 2).toNat; omega) (.nil ?_)
      show (loc + 2).toNat + 2 ≤ _
      omega

namespace Statement

theorem Puts.spaced {s : Statement} {symbols : SymbolTable} {p : Place} {rs : List Relocation}
    {bs : List UInt8} (h : s.Puts symbols p rs bs)
    (hfit : p.location.toNat + bs.length < UInt16.size) :
    Reference.Spaced p.location.toNat (s.references p.location)
      (p.location.toNat + bs.length) := by
  cases h with
  | data w args _ _ _ h =>
    have hlen : bs.length = (0 + args.length) * w.size := by
      rw [Width.length_of_fragmentsFrom h, Nat.zero_add]
    rw [hlen] at hfit ⊢
    have hspaced := Width.spaced_references hfit
    rwa [Nat.zero_mul, Nat.add_zero] at hspaced
  | instruction m args ops e _ hops hlen he =>
    rw [references_instruction hops]
    exact Operand.spaced_references hlen he hfit
  | skip n => exact .nil (Nat.le_add_right _ _)
  | align n a ha => exact .nil (Nat.le_add_right _ _)
  | nothing _ hn =>
    rw [references_of_not_occupies hn]
    exact .nil (Nat.le_add_right _ _)

theorem size_of_mem_references {s : Statement} {loc : UInt16} {ref : Reference}
    (h : ref ∈ s.references loc) :
    2 ≤ ref.size ∨ ref.size = 1 ∧ ∃ args, s = .data .char args ∧ ref.name ∈ args := by
  cases s with
  | data w args =>
    obtain ⟨⟨arg, i⟩, ha, href⟩ := List.mem_filterMap.1 h
    have harg : arg ∈ args := List.fst_mem_of_mem_zipIdx ha
    unfold Width.reference? at href
    split_ifs at href
    cases href
    cases w with
    | char => exact .inr ⟨rfl, args, rfl, harg⟩
    | word => exact .inl (Nat.le_refl 2)
    | long => exact .inl (Nat.le_add_left 2 2)
  | instruction m args =>
    unfold references at h
    dsimp only at h
    split at h
    · rw [Operand.references_eq] at h
      obtain ⟨w, -, href⟩ := List.mem_filterMap.1 h
      cases w with
      | literal l => cases href
      | reference kind n =>
        cases href
        exact .inl le_rfl
    · cases h
  | _ => cases h

end Statement

/-! ### Placeholders of a section -/

namespace Line

theorem Lays.spaced {symbols : SymbolTable} {line : Line} {out out' : Output}
    {here there : Option Place} (h : line.Lays symbols out here out' there)
    (hin : ∀ p, here = some p → p.kind.hasContents →
      (out.code.get p.kind).length = p.location.toNat) (k : Section) :
    Reference.Spaced (out.code.get k).length (line.references k here)
      (out'.code.get k).length := by
  cases h with
  | pass _ hp =>
    rw [references_of_not_occupies fun s hs => (hp s hs).1]
    exact .nil le_rfl
  | enter _ j hs =>
    rw [references_of_not_occupies fun s h => by cases hs.symm.trans h; rfl]
    exact .nil le_rfl
  | put p q s rs bs hs ho hf hq =>
    have hputs := Statement.puts_of_fragment hf
    unfold references
    rw [hs, out.get_code_put]
    dsimp only
    by_cases hk : p.kind = k
    · subst hk
      rw [if_pos rfl]
      by_cases hc : p.kind.hasContents
      · rw [if_pos ⟨rfl, hc⟩, List.length_append, hin p rfl hc]
        refine hputs.spaced ?_
        rw [← (Place.advance?_eq_some_iff.1 hq).2]
        exact q.location.toNat_lt
      · rw [(hputs.references_eq_nil (by simpa using hc)).1, if_neg fun h => hc h.2,
          List.append_nil]
        exact .nil le_rfl
    · rw [if_neg hk, if_neg fun h => hk h.1, List.append_nil]
      exact .nil le_rfl

end Line

theorem Output.Emits.spaced {l l' : Layout} {symbols : SymbolTable} {lines : List Line}
    {out out' : Output} {there : Option Place} (hin : l.InStep out)
    (hnd : (l'.extents.map Extent.kind).Nodup) (ht : l.Takes (lines.flatMap Line.located) l')
    (h : out.Emits symbols l.place lines out' there) (k : Section) :
    Reference.Spaced (out.code.get k).length (Line.allReferences k l.place lines)
      (out'.code.get k).length := by
  refine Layout.InStep.emits_induction (motive := fun out here lines out' =>
    Reference.Spaced (out.code.get k).length (Line.allReferences k here lines)
      (out'.code.get k).length) ?_ ?_ hin hnd ht h
  · intro out here
    exact .nil le_rfl
  · intro m line lines out mid out' there hm hline hrest
    show Reference.Spaced _ (line.references k m.place ++
      Line.allReferences k (line.next m.place) lines) _
    rw [hline.next_eq]
    exact (hline.spaced (fun _ hp => hm.length_place hp) k).append hrest

/-- The placeholders of a section that is assembled lie one behind the other inside its contents. -/
theorem spaced_of_assemble {source : String} {a : Assembly} (h : assemble source = .ok a)
    (k : Section) :
    Reference.Spaced 0 ((Program.ofSource source).references k) (a.object.contents k).length := by
  obtain ⟨l, out, there, ht, hf, -, he, rfl⟩ := Program.assemble_eq_ok_iff.1 h
  have hw := Program.wellFormed_of_takes (Program.takes_steps_iff.2 ⟨ht, hf⟩)
  have hspaced := Output.Emits.spaced (Layout.inStep_start .empty) hw.nodup ht he k
  have hempty : (Output.fresh.code.get k).length = 0 := by cases k <;> rfl
  rwa [hempty] at hspaced

/-- Every relocation patches its own placeholder inside its section.  In a source that is assembled,
the relocations of a section belong one to one and in order to the operands and elements that speak
of a symbol, and each starts at its placeholder.  Placeholders lie inside the contents, none overlaps
another, and so offsets increase.  A placeholder holds the 16 bits that are patched, unless it is an
element of `.char`. -/
theorem placeholders_of_assemble {source : String} {a : Assembly} (h : assemble source = .ok a)
    (k : Section) :
    List.Forall₂ (fun (ref : Reference) (r : Relocation) =>
        r.offset = ref.offset ∧
        r.offset.toNat + ref.size ≤ (a.object.contents k).length ∧
        (2 ≤ ref.size ∨ ref.size = 1 ∧ ∃ line ∈ (Program.ofSource source).lines, ∃ args,
          line.statement = some (.data .char args) ∧ ref.name ∈ args))
      ((Program.ofSource source).references k) (a.object.relocations.get k) ∧
    ((Program.ofSource source).references k).Pairwise
      (fun ref next => ref.offset.toNat + ref.size ≤ next.offset.toNat) ∧
    (a.object.relocations.get k).Pairwise (fun r next => r.offset < next.offset) := by
  have hspaced := spaced_of_assemble h k
  obtain ⟨l, -, -, -, hheld⟩ := held_of_assemble h
  have hsize : ∀ ref ∈ (Program.ofSource source).references k,
      2 ≤ ref.size ∨ ref.size = 1 ∧ ∃ line ∈ (Program.ofSource source).lines, ∃ args,
        line.statement = some (.data .char args) ∧ ref.name ∈ args := by
    intro ref href
    obtain ⟨line, hline, s, loc, hs, hmem⟩ := Line.exists_of_mem_allReferences href
    refine (Statement.size_of_mem_references hmem).imp_right ?_
    rintro ⟨hone, args, rfl, hname⟩
    exact ⟨hone, line, hline, args, hs, hname⟩
  have hoffset : List.Forall₂ (fun (ref : Reference) (r : Relocation) => r.offset = ref.offset)
      ((Program.ofSource source).references k) (a.object.relocations.get k) :=
    (hheld k).imp fun _ _ href => href.offset
  refine ⟨?_, hspaced.pairwise, ?_⟩
  · refine ((List.forall₂_and_left _ _).2 ⟨fun ref href => href, hoffset⟩).imp ?_
    rintro ref r ⟨href, hr⟩
    rw [hr]
    exact ⟨rfl, (hspaced.bounds href).2, hsize ref href⟩
  · have hstrict : ((Program.ofSource source).references k).Pairwise
        (fun ref next => ref.offset < next.offset) := by
      refine hspaced.pairwise.imp_of_mem fun {ref next} href _ hle => ?_
      have := hsize ref href
      rw [UInt16.lt_iff_toNat_lt]
      omega
    have hmap : ((Program.ofSource source).references k).map Reference.offset =
        (a.object.relocations.get k).map Relocation.offset := by
      rw [← List.forall₂_eq_eq_eq, List.forall₂_map_left_iff, List.forall₂_map_right_iff]
      exact hoffset.imp fun _ _ h => h.symm
    rw [← List.pairwise_map, ← hmap, List.pairwise_map]
    exact hstrict

/-- The relocations of single bytes reach past their section and into each other. -/
theorem exists_assemble_overlap :
    ∃ a, assemble ".data\nx: .char x, x" = .ok a ∧
      (¬ ∀ r ∈ a.object.relocations.get .data,
        r.offset.toNat + 1 < (a.object.contents .data).length) ∧
      ¬ (a.object.relocations.get .data).Pairwise
        (fun r next => r.offset.toNat + 2 ≤ next.offset.toNat) := by
  obtain ⟨a, h⟩ := Results.exists_of_isSome (x := assemble ".data\nx: .char x, x")
    (by decide +kernel)
  have hrelocations : (assemble ".data\nx: .char x, x").toOption.map
      (fun a => (a.object.relocations.get .data, (a.object.contents .data).length)) =
      some ([⟨0, .absolute, 2⟩, ⟨1, .absolute, 2⟩], 2) := by decide +kernel
  rw [h] at hrelocations
  obtain ⟨hrelocations, hlength⟩ := Prod.mk.inj (Option.some.inj hrelocations)
  refine ⟨a, h, ?_, ?_⟩
  · rw [hrelocations, hlength]
    decide
  · rw [hrelocations]
    decide

theorem placeholders_of_assemble_char_and_word :
    ∃ a, assemble ".data\nx: .char x, x\n.word x\n.text\ncall x" = .ok a ∧
      (a.object.relocations.get .data).length = 3 ∧
      (a.object.relocations.get .data).Pairwise (fun r next => r.offset < next.offset) ∧
      (a.object.relocations.get .text).length = 1 ∧
      ∀ r ∈ a.object.relocations.get .text,
        r.offset.toNat + 2 ≤ (a.object.contents .text).length := by
  obtain ⟨a, h⟩ := Results.exists_of_isSome
    (x := assemble ".data\nx: .char x, x\n.word x\n.text\ncall x") (by decide +kernel)
  obtain ⟨hdata, -, hstrict⟩ := placeholders_of_assemble h .data
  obtain ⟨htext, -, -⟩ := placeholders_of_assemble h .text
  refine ⟨a, h, ?_, hstrict, ?_, fun r hr => ?_⟩
  · rw [← hdata.length_eq]
    decide +kernel
  · rw [← htext.length_eq]
    decide +kernel
  · have hsizes : ((Program.ofSource ".data\nx: .char x, x\n.word x\n.text\ncall x").references
        .text).all (fun ref => ref.size = 2) := by decide +kernel
    obtain ⟨ref, href, -, hfit, -⟩ := Results.exists_of_mem_forall₂ htext hr
    have htwo : ref.size = 2 := of_decide_eq_true (List.all_eq_true.1 hsizes ref href)
    rwa [htwo] at hfit

end SS16
