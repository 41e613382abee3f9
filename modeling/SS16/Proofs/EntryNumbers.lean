import SS16.Proofs.Linking
import SS16.Proofs.Source.Exports

/-!
# SS16.Proofs.EntryNumbers — what an entry number tells

Names are numbered from 5 on in 16 bits, and nothing stops the count.  Main statements:
`nodup_numbers_iff_of_assemble` (numbers tell the entries apart exactly up to the name with number
65535) and `exists_assemble_not_nodup_numbers` (the count can go on from there).
-/

namespace SS16

/-- Entry numbers identify entries as long as they last.  In a source that is assembled, the numbers
of all entries are different and those of names start at 5 exactly if it has at most 65531 names,
the last one numbered 65535.  Then every relocation waits for exactly one entry. -/
theorem nodup_numbers_iff_of_assemble {source : String} {a : Assembly}
    (h : assemble source = .ok a) :
    (((a.object.symbols.toList.map Symbol.number).Nodup ∧
        ∀ s ∈ a.object.symbols.toList, (∀ k : Section, s.name ≠ k.name) → 5 ≤ s.number) ↔
      (Program.ofSource source).names.toFinset.card ≤ 65531) ∧
    ((Program.ofSource source).names.toFinset.card ≤ 65531 →
      ∀ k, ∀ r ∈ a.object.relocations.get k,
        ∃! s, s ∈ a.object.symbols.toList ∧ s.number = r.entry) := by
  obtain ⟨l, ht, hw, hsymbols, hheld⟩ := held_of_assemble h
  have hnum := Program.numbered_of_takes ht
  rw [hsymbols, ← Program.length_users_of_takes ht]
  refine ⟨hnum.nodup_iff hw, fun hlen k r hr => ?_⟩
  obtain ⟨ref, -, href⟩ := Results.exists_of_mem_forall₂ (hheld k) hr
  obtain ⟨-, -, entry, -, hmem, hnumber, honly, -⟩ := href.entry hw hnum hlen
  exact ⟨entry, ⟨hmem, hnumber⟩, fun e he => honly e he.1 he.2⟩

theorem nodup_numbers_iff_of_assemble_two_names :
    ∃ a, assemble ".global x\n.text\nmov r1, x\ncall y\ny:" = .ok a ∧
      (a.object.symbols.toList.map Symbol.number).Nodup ∧
      ∀ r ∈ a.object.relocations.get .text,
        ∃! s, s ∈ a.object.symbols.toList ∧ s.number = r.entry := by
  obtain ⟨a, h⟩ := Results.exists_of_isSome
    (x := assemble ".global x\n.text\nmov r1, x\ncall y\ny:") (by decide +kernel)
  obtain ⟨hiff, hentries⟩ := nodup_numbers_iff_of_assemble h
  have hcard : (Program.ofSource ".global x\n.text\nmov r1, x\ncall y\ny:").names.toFinset.card ≤
      65531 := by decide +kernel
  exact ⟨a, h, (hiff.2 hcard).1, hentries hcard .text⟩

/-! ### Running out of numbers -/

namespace Layout

theorem isGlobal_of_mem_share {l : Layout} (hl : ∀ s ∈ l.symbols.toList, s.isGlobal) (n : String) :
    ∀ s ∈ (l.share n).symbols.toList, s.isGlobal := by
  intro s hs
  unfold share at hs
  cases hn : l.symbols.get? n with
  | none =>
    rw [if_neg (by simp [SymbolTable.contains, hn])] at hs
    rcases SymbolTable.mem_insert.1 hs with rfl | ⟨hs, -⟩
    · rfl
    · exact hl s hs
  | some r =>
    rw [if_pos (SymbolTable.contains_iff.2 ⟨r, hn⟩)] at hs
    dsimp only at hs
    rw [SymbolTable.rebind_of_get? hn] at hs
    rcases SymbolTable.mem_insert.1 hs with rfl | ⟨hs, -⟩
    · rfl
    · exact hl s hs

/-- Names can be shared without end, and then all of them are global. -/
theorem exists_takes_share {l : Layout} (hl : ∀ s ∈ l.symbols.toList, s.isGlobal)
    (names : List String) :
    ∃ l', l.Takes (names.map fun n => (0, .share n)) l' ∧ ∀ s ∈ l'.symbols.toList, s.isGlobal := by
  induction names generalizing l with
  | nil => exact ⟨l, takes_nil.2 rfl, hl⟩
  | cons n names ih =>
    obtain ⟨l', ht, hl'⟩ := ih (isGlobal_of_mem_share hl n)
    exact ⟨l', takes_cons.2 ⟨rfl, ht⟩, hl'⟩

/-- The name after 65536 others has the number of the first. -/
theorem Numbered.not_nodup {l : Layout} (h : l.Numbered)
    (hlen : 65536 < l.symbols.users.length) : ¬ (l.symbols.toList.map Symbol.number).Nodup := by
  intro hnd
  have husers : (l.symbols.users.map Symbol.number).Nodup :=
    (List.filter_sublist.map Symbol.number).nodup hnd
  have hlast : 65536 < (l.symbols.users.map Symbol.number).length := by
    rw [List.length_map]
    exact hlen
  have hfirst : 0 < (l.symbols.users.map Symbol.number).length := by omega
  have hsame : (l.symbols.users.map Symbol.number)[65536] =
      (l.symbols.users.map Symbol.number)[0] := by
    rw [List.getElem_map, List.getElem_map, h.number_getElem hlen, h.number_getElem]
    rfl
  have hzero := husers.getElem_inj_iff.1 hsame
  omega

end Layout

theorem exists_assemble_exporting {names : List String} (h : ∀ n ∈ names, Identifier.isValid n) :
    ∃ a, assemble (exporting names) = .ok a := by
  obtain ⟨l, ht, hl⟩ :=
    Layout.exists_takes_share (l := .start .empty) (by simp [Layout.start]) names
  rw [← Program.steps_exporting h] at ht
  obtain ⟨ht, hfault⟩ := Program.takes_steps_iff.1 ht
  have hu : Layout.unresolved? l.symbols = none := by
    refine List.find?_eq_none.2 fun s hs => ?_
    rw [hl s hs]
    simp
  have he : Output.fresh.Emits l.symbols none (Program.ofSource (exporting names)).lines .fresh
      none := by
    rw [Program.ofSource_exporting h]
    refine Output.emits_cons.2 ⟨_, _, .pass _ _ ?_, Output.emits_nil.2 ⟨rfl, rfl⟩⟩
    rintro s hs
    cases hs
    exact ⟨rfl, rfl⟩
  exact ⟨_, Program.assemble_eq_ok_iff.2 ⟨l, _, _, ht, hfault, hu, he, rfl⟩⟩

def nameOf (i : Nat) : String := String.ofList (List.replicate (i + 1) 'n')

theorem isValid_nameOf (i : Nat) : Identifier.isValid (nameOf i) := by
  have htail : ∀ c ∈ List.replicate i 'n', Identifier.isTail c := by
    intro c hc
    rw [List.eq_of_mem_replicate hc]
    decide
  unfold Identifier.isValid nameOf
  rw [String.toList_ofList, List.replicate_succ, Identifier.valid, Bool.and_eq_true]
  exact ⟨by decide, List.all_eq_true.2 htail⟩

theorem nameOf_injective : Function.Injective nameOf := by
  intro i j h
  have hlen := congrArg (fun s : String => s.toList.length) h
  unfold nameOf at hlen
  simpa using hlen

/-- There are sources that are assembled and give two entries the same number. -/
theorem exists_assemble_not_nodup_numbers :
    ∃ source a, assemble source = .ok a ∧ ¬ (a.object.symbols.toList.map Symbol.number).Nodup := by
  have hvalid : ∀ n ∈ (List.range 65537).map nameOf, Identifier.isValid n := by
    intro n hn
    obtain ⟨i, -, rfl⟩ := List.mem_map.1 hn
    exact isValid_nameOf i
  have hnodup : ((List.range 65537).map nameOf).Nodup :=
    List.nodup_range.map nameOf_injective
  obtain ⟨a, ha⟩ := exists_assemble_exporting hvalid
  refine ⟨_, a, ha, ?_⟩
  obtain ⟨l, ht, hw, hsymbols, -⟩ := held_of_assemble ha
  rw [hsymbols]
  refine (Program.numbered_of_takes ht).not_nodup ?_
  rw [Program.length_users_of_takes ht, Program.names_exporting hvalid,
    List.toFinset_card_of_nodup hnodup, List.length_map, List.length_range]
  decide

end SS16
