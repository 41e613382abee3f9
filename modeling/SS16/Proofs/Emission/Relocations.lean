import SS16.Proofs.Emission.Sweep

/-!
# SS16.Proofs.Emission.Relocations — the relocations of a program

`Program.references` walks over the lines of a program and reads off what waits for a symbol in a
section.  The second sweep writes one relocation for each.  Main statements: `Output.Emits.held` and
`Program.stop_of_mem_references`.
-/

namespace SS16

/-- The references of a line in a section, when the line stands at a place. -/
def Line.references (k : Section) (here : Option Place) (line : Line) : List Reference :=
  match here, line.statement with
  | some p, some s => if p.kind = k then s.references p.location else []
  | _, _ => []

def Line.allReferences (k : Section) : Option Place → List Line → List Reference
  | _, [] => []
  | here, line :: lines => line.references k here ++ allReferences k (line.next here) lines

def Program.references (p : Program) (k : Section) : List Reference :=
  Line.allReferences k none p.lines

namespace Line

theorem references_of_not_occupies {line : Line}
    (h : ∀ s, line.statement = some s → s.occupies = false) (k : Section) (here : Option Place) :
    line.references k here = [] := by
  unfold references
  split
  · rename_i p s hs
    rw [Statement.references_of_not_occupies (h s hs), ite_self]
  · rfl

/-- A line without a fault adds bytes and relocations at the end of its section, and the relocations
are held by what is there then. -/
theorem Lays.held {symbols : SymbolTable} {line : Line} {out out' : Output}
    {here there : Option Place} (h : line.Lays symbols out here out' there)
    (hin : ∀ p, here = some p → p.kind.hasContents →
      (out.code.get p.kind).length = p.location.toNat) (k : Section) :
    ∃ bs rs, out'.code.get k = out.code.get k ++ bs ∧
      out'.relocations.get k = out.relocations.get k ++ rs ∧
      List.Forall₂ (Reference.Held symbols (out'.code.get k)) (line.references k here) rs := by
  cases h with
  | pass _ hp =>
    refine ⟨[], [], (List.append_nil _).symm, (List.append_nil _).symm, ?_⟩
    rw [references_of_not_occupies fun s hs => (hp s hs).1]
    exact .nil
  | enter _ j hs =>
    refine ⟨[], [], (List.append_nil _).symm, (List.append_nil _).symm, ?_⟩
    rw [references_of_not_occupies fun s h => by cases hs.symm.trans h; rfl]
    exact .nil
  | put p q s rs bs hs ho hf hq =>
    have hputs := Statement.puts_of_fragment hf
    refine ⟨_, _, out.get_code_put line.row p rs bs k, out.get_relocations_put line.row p rs bs k,
      ?_⟩
    unfold references
    rw [hs]
    by_cases hk : p.kind = k
    · subst hk
      dsimp only
      rw [if_pos rfl, if_pos rfl, out.get_code_put]
      by_cases hc : p.kind.hasContents
      · rw [if_pos ⟨rfl, hc⟩]
        have hpre := hin p rfl hc
        refine hputs.held hpre ?_
        rw [hpre, ← (Place.advance?_eq_some_iff.1 hq).2]
        exact q.location.toNat_lt
      · obtain ⟨hrefs, rfl⟩ := hputs.references_eq_nil (by simpa using hc)
        rw [hrefs]
        exact .nil
    · dsimp only
      rw [if_neg hk, if_neg hk]
      exact .nil

theorem exists_of_mem_allReferences {k : Section} {here : Option Place} {lines : List Line}
    {ref : Reference} (h : ref ∈ allReferences k here lines) :
    ∃ line ∈ lines, ∃ s loc, line.statement = some s ∧ ref ∈ s.references loc := by
  induction lines generalizing here with
  | nil => cases h
  | cons line lines ih =>
    rcases List.mem_append.1 h with h | h
    · unfold references at h
      split at h
      · rename_i p s hs _
        split_ifs at h
        · exact ⟨line, List.mem_cons_self, s, p.location, hs, h⟩
        · cases h
      · cases h
    · obtain ⟨b, hb, he⟩ := ih h
      exact ⟨b, List.mem_cons_of_mem line hb, he⟩

end Line

theorem Program.stop_of_mem_references {p : Program} {k : Section} {ref : Reference}
    (h : ref ∈ p.references k) (hr : ref.kind = .relative) : ref.stop = ref.offset + 2 := by
  obtain ⟨line, -, s, loc, -, href⟩ := Line.exists_of_mem_allReferences h
  exact Statement.stop_of_mem_references href hr

/-- The second sweep writes one relocation for each reference, in order, and its bytes hold what the
references ask for. -/
theorem Output.Emits.held {l l' : Layout} {symbols : SymbolTable} {lines : List Line}
    {out out' : Output} {there : Option Place} (hin : l.InStep out)
    (hnd : (l'.extents.map Extent.kind).Nodup) (ht : l.Takes (lines.flatMap Line.located) l')
    (h : out.Emits symbols l.place lines out' there) (k : Section) :
    ∃ bs rs, out'.code.get k = out.code.get k ++ bs ∧
      out'.relocations.get k = out.relocations.get k ++ rs ∧
      List.Forall₂ (Reference.Held symbols (out'.code.get k))
        (Line.allReferences k l.place lines) rs := by
  refine Layout.InStep.emits_induction (motive := fun out here lines out' =>
    ∃ bs rs, out'.code.get k = out.code.get k ++ bs ∧
      out'.relocations.get k = out.relocations.get k ++ rs ∧
      List.Forall₂ (Reference.Held symbols (out'.code.get k))
        (Line.allReferences k here lines) rs) ?_ ?_ hin hnd ht h
  · intro out here
    exact ⟨[], [], (List.append_nil _).symm, (List.append_nil _).symm, .nil⟩
  · intro m line lines out mid out' there hm hline hrest
    obtain ⟨bs, rs, hcode, hrelocations, hheld⟩ := hline.held (fun _ hp => hm.length_place hp) k
    obtain ⟨bs', rs', hcode', hrelocations', hheld'⟩ := hrest
    refine ⟨bs ++ bs', rs ++ rs', ?_, ?_, ?_⟩
    · rw [hcode', hcode, List.append_assoc]
    · rw [hrelocations', hrelocations, List.append_assoc]
    · show List.Forall₂ _ (line.references k m.place ++
        Line.allReferences k (line.next m.place) lines) _
      rw [hline.next_eq]
      refine List.rel_append ?_ hheld'
      rw [hcode']
      exact Reference.held_append_all hheld bs'

end SS16
