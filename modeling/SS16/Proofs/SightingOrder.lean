import SS16.Proofs.Layout.Sightings

/-!
# SS16.Proofs.SightingOrder — entries stand and count in the order of first sighting

The table of a source that is laid out follows its text.  Entries stand in the order in which their
names are first sighted, and the entries of names are numbered in this order from 5 on, while those
of sections have numbers of their own.  Nothing that comes later in the source changes this.  Main
statement: `Program.inOrder_of_layout`.
-/

namespace SS16

/-- The entries of lines in the order of first sighting. -/
structure SymbolTable.InOrder (t : SymbolTable) (lines : List Line) : Prop where
  /-- Each entry stands where its name, or its section, is first sighted. -/
  order : t.toList.map Symbol.name = (lines.flatMap Line.sightings).eraseDups
  /-- The names other than those of sections are numbered in this order. -/
  names : ∀ k n, (lines.flatMap Line.names).eraseDups[k]? = some n →
    ∃ s, t.get? n = some s ∧ s.number.toNat = 5 + k
  /-- A section has its own number, counted from one. -/
  sections : ∀ kind ∈ lines.filterMap Line.opens?,
    ∃ s, t.get? kind.name = some s ∧ s.number.toNat = Section.all.idxOf kind + 1

namespace Layout

variable {lines : List Line} {l : Layout}

theorem Lists.map_name_users (h : l.Lists (lines.flatMap Line.sightings))
    (hv : ∀ line ∈ lines, ∀ n ∈ line.names, Identifier.isValid n) :
    l.symbols.users.map Symbol.name = (lines.flatMap Line.names).eraseDups := by
  have hfilter : l.symbols.users.map Symbol.name =
      (l.symbols.toList.map Symbol.name).filter Identifier.isValid := by
    rw [List.filter_map]
    rfl
  rw [hfilter, h, Sightings.filter_eraseDups, Line.filter_isValid_flatMap hv]

theorem Lists.get?_section (h : l.Lists (lines.flatMap Line.sightings)) (hw : l.WellFormed)
    {k : Section} (hk : k ∈ lines.filterMap Line.opens?) :
    l.symbols.get? k.name = some (.ofSection k) := by
  obtain ⟨line, hline, hopens⟩ := List.mem_filterMap.1 hk
  have hmem : k.name ∈ lines.flatMap Line.sightings := by
    refine List.mem_flatMap.2 ⟨line, hline, ?_⟩
    simp [Line.sightings, hopens]
  obtain ⟨s, hs⟩ := SymbolTable.contains_iff.1 (h.contains_iff.2 hmem)
  have hname := SymbolTable.name_of_get? hs
  rcases hw.named s (SymbolTable.mem_of_get? hs) with hv | ⟨j, rfl⟩
  · rw [hname, Section.isValid_name] at hv
    cases hv
  · obtain rfl : j = k := Section.name_inj.1 hname
    exact hs

end Layout

/-- The table of a source that is laid out lists its entries in the order of first sighting, line by
line and within a line from left to right.  Up to 65531 names, the one that is sighted after `k`
others has number `5 + k`, whatever labels, exports and uses come later; sections have the numbers
1 to 4 and use up none. -/
theorem Program.inOrder_of_layout {source : String} {sections : List Extent}
    (h : ((ofSource source).layout .empty).sections = .ok sections)
    (hcard : (ofSource source).names.toFinset.card ≤ 65531) :
    ∃ lines, Reads 0 (Text.rows source) lines ∧
      ((ofSource source).layout .empty).symbols.InOrder lines := by
  obtain ⟨l, ht, -, -, hsymbols⟩ := layout_eq_ok_iff.1 h
  have hw := wellFormed_of_takes ht
  have hnumbered := numbered_of_takes ht
  rw [← length_users_of_takes ht] at hcard
  obtain ⟨ht, hfault⟩ := takes_steps_iff.1 ht
  have hread := reads_of_fault hfault
  have hreadable := (ht.accepted hread.isValid_of_mem_labels).readable
  have hlists := ht.lists_lines hreadable
  refine ⟨_, hread, hsymbols ▸ ⟨hlists, fun k n hn => ?_, fun kind hk => ?_⟩⟩
  · rw [← hlists.map_name_users (hread.isValid_of_mem_names hreadable), List.getElem?_map] at hn
    obtain ⟨s, hs, rfl⟩ := Option.map_eq_some_iff.1 hn
    obtain ⟨hlt, rfl⟩ := List.getElem?_eq_some_iff.1 hs
    refine ⟨_, SymbolTable.get?_of_mem (SymbolTable.mem_users.1 (List.getElem_mem hlt)).1, ?_⟩
    rw [hnumbered.number_getElem hlt, Layout.toNat_numberAt (by omega)]
  · refine ⟨_, hlists.get?_section hw hk, ?_⟩
    cases kind <;> rfl

theorem Program.inOrder_of_layout_between_sections :
    ∃ lines, Reads 0
        (Text.rows ".global out, late\n.text\na: b: call c\njmp a\n.data\nc: .word late, b\nlate:")
        lines ∧
      ((ofSource
        ".global out, late\n.text\na: b: call c\njmp a\n.data\nc: .word late, b\nlate:").layout
          .empty).symbols.InOrder lines := by
  obtain ⟨sections, h⟩ := Results.exists_of_isSome (x := ((ofSource
    ".global out, late\n.text\na: b: call c\njmp a\n.data\nc: .word late, b\nlate:").layout
      .empty).sections) (by decide +kernel)
  exact inOrder_of_layout h (by decide +kernel)

end SS16
