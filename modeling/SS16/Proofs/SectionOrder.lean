import SS16.Proofs.Emission.Blocks
import SS16.Proofs.Emission.Entries
import SS16.Proofs.Source.Blocks

/-!
# SS16.Proofs.SectionOrder — the order of sections does not matter

A source made of blocks, one for each section, can have them in any order: names may come up in
another order and get other entry numbers, but nothing else changes.  Main statements:
`exists_assemble_perm` and `assemble_perm`.
-/

namespace SS16

/-! ### Lines -/

section

variable {front : List Line} {blocks blocks' : List (List Line)} {lines lines' : List Line}

theorem Line.Accepted.outside (h : Line.Accepted (front ++ blocks.flatten))
    (hfront : ∀ line ∈ front, line.opens? = none) :
    ∀ line ∈ front, line.opens? = none ∧ line.occupies = false := by
  intro line hline
  refine ⟨hfront line hline, ?_⟩
  obtain ⟨xs, ys, rfl⟩ := List.append_of_mem hline
  have hplaced := (along_append.1 h.placed).1 xs line ys rfl
  by_contra hocc
  refine hplaced (.inr (by simpa using hocc)) ?_
  exact List.filterMap_eq_nil_iff.2 fun x hx => hfront x (List.mem_append_left _ hx)

theorem exists_emits_iff_laysAlone {t : SymbolTable}
    (hl : lines.map Line.unnumbered = front ++ blocks.flatten)
    (hfront : ∀ line ∈ front, line.opens? = none ∧ line.occupies = false)
    (hB : ∀ B ∈ blocks, Line.Block B) :
    (∃ out there, Output.fresh.Emits t none lines out there) ↔
      ∀ B ∈ blocks, Line.LaysAlone t B := by
  have hstatement : (front ++ blocks.flatten).map Line.statement = lines.map Line.statement := by
    rw [← hl, Line.map_statement_unnumbered]
  have hblocks : (∃ out there, Output.fresh.Emits t none blocks.flatten out there) ↔
      ∀ B ∈ blocks, Line.LaysAlone t B := Output.exists_emits_blocks_iff hB
  rw [← hblocks]
  constructor
  · rintro ⟨out, there, he⟩
    obtain ⟨o, ho, -⟩ := he.renumbered t.renumbers_refl hstatement .fresh
    obtain ⟨mid, m, h1, h2⟩ := Output.emits_append.1 ho
    obtain ⟨rfl, rfl⟩ := (Output.emits_outside_iff hfront).1 h1
    exact ⟨o, there, h2⟩
  · rintro ⟨o, there, ho⟩
    have hall : Output.fresh.Emits t none (front ++ blocks.flatten) o there :=
      Output.emits_append.2 ⟨_, _, (Output.emits_outside_iff hfront).2 ⟨rfl, rfl⟩, ho⟩
    obtain ⟨out, hout, -⟩ := hall.renumbered t.renumbers_refl hstatement.symm .fresh
    exact ⟨out, there, hout⟩

theorem Output.Emits.get_fresh {t : SymbolTable} {out : Output} {there : Option Place}
    (h : Output.fresh.Emits t none lines out there)
    (hl : lines.map Line.unnumbered = front ++ blocks.flatten)
    (hfront : ∀ line ∈ front, line.opens? = none ∧ line.occupies = false)
    (hB : ∀ B ∈ blocks, Line.Block B) (k : Section) :
    out.code.get k = blocks.flatMap (fun B => (Line.alone t B).code.get k) ∧
      out.relocations.get k = blocks.flatMap (fun B => (Line.alone t B).relocations.get k) := by
  have hstatement : (front ++ blocks.flatten).map Line.statement = lines.map Line.statement := by
    rw [← hl, Line.map_statement_unnumbered]
  have hfresh : Output.fresh.code.get k = [] ∧ Output.fresh.relocations.get k = [] := by
    cases k <;> exact ⟨rfl, rfl⟩
  obtain ⟨o, ho, hadd⟩ := h.renumbered t.renumbers_refl hstatement .fresh
  obtain ⟨mid, m, h1, h2⟩ := Output.emits_append.1 ho
  obtain ⟨rfl, rfl⟩ := (Output.emits_outside_iff hfront).1 h1
  obtain ⟨bs, hbs, hbs'⟩ := hadd.code k
  obtain ⟨rs, qs, hrs, hqs, hrel⟩ := hadd.relocations k
  obtain ⟨hcode, hrelocations⟩ := h2.get_blocks hB k
  rw [hbs, hrs, Relocation.eq_of_forall₂_alike hrel, ← hbs', ← hqs, hcode, hrelocations,
    hfresh.1, hfresh.2]
  exact ⟨rfl, rfl⟩

/-- If a program of blocks is assembled, so is one with the blocks in another order.  It has the same
code, the same section for each block and the same symbols, and its relocations differ in entry
numbers only. -/
theorem exists_assemble_perm (hl : lines.map Line.unnumbered = front ++ blocks.flatten)
    (hl' : lines'.map Line.unnumbered = front ++ blocks'.flatten)
    (hfront : ∀ line ∈ front, line.opens? = none) (hB : ∀ B ∈ blocks, Line.Block B)
    (hlabels : ∀ line ∈ front ++ blocks.flatten, ∀ n ∈ line.labels, Identifier.isValid n)
    (hp : blocks.Perm blocks') {a : Assembly} (h : (Program.mk lines none).assemble = .ok a) :
    ∃ a', (Program.mk lines' none).assemble = .ok a' ∧ a.object.code = a'.object.code ∧
      a.object.sections.map some = blocks.map Line.extent? ∧
      a'.object.sections.map some = blocks'.map Line.extent? ∧
      a.object.symbols.Agree a'.object.symbols ∧
      ∀ k, List.Forall₂ (Relocation.Alike fun x y => a.object.symbols.users.length ≤ 65531 →
          a.object.symbols.SameEntry a'.object.symbols x y)
        (a.object.relocations.get k) (a'.object.relocations.get k) := by
  obtain ⟨l, out, there, ht, -, hu, he, rfl⟩ := Program.assemble_eq_ok_iff.1 h
  have hB' : ∀ B ∈ blocks', Line.Block B := fun B hmem => hB B (hp.mem_iff.2 hmem)
  have ht := (Layout.takes_unnumbered hl).1 ht
  have hacc := ht.accepted hlabels
  obtain ⟨l', ht', hu', hagree, hrenumbers⟩ :=
    ht.reordered hlabels (Line.reordered_blocks hB hp) hu
  -- the second sweep
  have houtside := hacc.outside hfront
  have halone := (exists_emits_iff_laysAlone hl houtside hB).1 ⟨out, there, he⟩
  obtain ⟨out', there', he'⟩ := (exists_emits_iff_laysAlone (t := l'.symbols) hl' houtside hB').2
    fun B hmem => ((halone B (hp.mem_iff.2 hmem)).renumbered hrenumbers).1
  have hsections : (blocks.flatten.filterMap Line.opens?).Nodup := by
    have hnd := hacc.sections
    rw [List.filterMap_append] at hnd
    exact (List.nodup_append.1 hnd).2.1
  refine ⟨_, Program.assemble_eq_ok_iff.2
    ⟨l', out', there', (Layout.takes_unnumbered hl').2 ht', rfl, hu', he', rfl⟩, ?_,
    ht.extents_blocks hfront hB, ht'.extents_blocks hfront hB', hagree, fun k => ?_⟩
  · show out.code = out'.code
    refine BySection.eq_of_get ((keys_fresh he).trans (keys_fresh he').symm) fun k => ?_
    rw [(he.get_fresh hl houtside hB k).1, (he'.get_fresh hl' houtside hB' k).1,
      (Line.flatMap_alone_perm halone hsections hp k).1]
    exact List.flatMap_congr fun B hmem =>
      (((halone B (hp.mem_iff.2 hmem)).renumbered hrenumbers).2 k).1.symm
  · show List.Forall₂ _ (out.relocations.get k) (out'.relocations.get k)
    rw [(he.get_fresh hl houtside hB k).2, (he'.get_fresh hl' houtside hB' k).2,
      (Line.flatMap_alone_perm halone hsections hp k).2]
    refine List.rel_flatMap (R := fun B C => B = C ∧ B ∈ blocks')
      (List.forall₂_same.2 fun B hmem => ⟨rfl, hmem⟩) ?_
    rintro B _ ⟨rfl, hmem⟩
    exact (((halone B (hp.mem_iff.2 hmem)).renumbered hrenumbers).2 k).2

end

/-! ### Sources -/

section

variable {preamble : String} {texts texts' : List String}

theorem ne_stop_of_mem_rows (hbody : ∀ raw ∈ Text.rows preamble, Text.IsBody raw)
    (htexts : ∀ t ∈ texts, SectionText t) :
    ∀ raw ∈ Text.rows preamble ++ texts.flatMap Text.rows, ∀ row line,
      Line.parse row raw = .ok line → line.statement ≠ some .stop := by
  intro raw hraw row line hp
  rcases List.mem_append.1 hraw with hraw | hraw
  · exact (hbody raw hraw row line hp).2
  · obtain ⟨t, ht, hraw⟩ := List.mem_flatMap.1 hraw
    exact (htexts t ht).ne_stop raw hraw row line hp

theorem exists_ofSource_iff (hpre : Text.Terminated preamble)
    (hbody : ∀ raw ∈ Text.rows preamble, Text.IsBody raw)
    (htexts : ∀ t ∈ texts, SectionText t) :
    ((∃ lines, Program.ofSource (preamble ++ String.join texts) = ⟨lines, none⟩) ↔
      ∀ raw ∈ Text.rows preamble ++ texts.flatMap Text.rows, (Line.ofRow? raw).isSome) ∧
    ∀ lines, Program.ofSource (preamble ++ String.join texts) = ⟨lines, none⟩ →
      lines.map Line.unnumbered = Text.lines preamble ++ (texts.map Text.lines).flatten := by
  have hrows := Text.rows_append_join hpre fun t ht => (htexts t ht).terminated
  have hstop := ne_stop_of_mem_rows hbody htexts
  have hreads : ∀ lines, Program.ofSource (preamble ++ String.join texts) = ⟨lines, none⟩ ↔
      Reads 0 (Text.rows preamble ++ texts.flatMap Text.rows) lines := fun lines => by
    rw [← hrows]
    exact Program.ofRows_eq_iff
  simp only [hreads]
  refine ⟨⟨?_, fun hall => exists_reads hall hstop 0⟩, fun lines hlines => ?_⟩
  · rintro ⟨lines, hlines⟩
    exact (hlines.map_unnumbered hstop).1
  · rw [(hlines.map_unnumbered hstop).2, List.filterMap_append, List.filterMap_flatMap]
    rfl

/-- If a source of blocks is assembled, so is one with the blocks in another order. -/
theorem exists_assemble_source_perm (hpre : Text.Terminated preamble)
    (hbody : ∀ raw ∈ Text.rows preamble, Text.IsBody raw)
    (htexts : ∀ t ∈ texts, SectionText t) (hp : texts.Perm texts') {a : Assembly}
    (h : assemble (preamble ++ String.join texts) = .ok a) :
    ∃ a', assemble (preamble ++ String.join texts') = .ok a' ∧ a.object.code = a'.object.code ∧
      a.object.sections.map some = (texts.map Text.lines).map Line.extent? ∧
      a'.object.sections.map some = (texts'.map Text.lines).map Line.extent? ∧
      a.object.symbols.Agree a'.object.symbols ∧
      ∀ k, List.Forall₂ (Relocation.Alike fun x y => a.object.symbols.users.length ≤ 65531 →
          a.object.symbols.SameEntry a'.object.symbols x y)
        (a.object.relocations.get k) (a'.object.relocations.get k) := by
  have htexts' : ∀ t ∈ texts', SectionText t := fun t ht => htexts t (hp.mem_iff.2 ht)
  obtain ⟨hread, hlines⟩ := exists_ofSource_iff hpre hbody htexts
  obtain ⟨hread', hlines'⟩ := exists_ofSource_iff hpre hbody htexts'
  obtain ⟨lines, hsource⟩ : ∃ lines,
      Program.ofSource (preamble ++ String.join texts) = ⟨lines, none⟩ := by
    obtain ⟨-, -, -, -, hf, -⟩ := Program.assemble_eq_ok_iff.1 h
    exact ⟨_, by rw [← hf]⟩
  have hrows := (hp.flatMap_right Text.rows).append_left (Text.rows preamble)
  obtain ⟨lines', hsource'⟩ := hread'.2 fun raw hraw =>
    hread.1 ⟨lines, hsource⟩ raw (hrows.mem_iff.2 hraw)
  have hl := hlines lines hsource
  have hlabels : ∀ line ∈ Text.lines preamble ++ (texts.map Text.lines).flatten,
      ∀ n ∈ line.labels, Identifier.isValid n := by
    rw [← hl]
    intro line hline n hn
    obtain ⟨numbered, hmem, rfl⟩ := List.mem_map.1 hline
    obtain ⟨row, raw, -, hparse⟩ := Program.exists_parse_of_mem_lines
      (show numbered ∈ (Program.ofSource (preamble ++ String.join texts)).lines by
        rw [hsource]
        exact hmem)
    exact Line.isValid_of_mem_labels hparse hn
  unfold assemble at h ⊢
  rw [hsource] at h
  rw [hsource']
  refine exists_assemble_perm hl (hlines' lines' hsource') ?_ ?_ hlabels (hp.map _) h
  · intro line hline
    obtain ⟨raw, hraw, hof⟩ := List.mem_filterMap.1 hline
    exact Line.opens?_of_isBody (hbody raw hraw) hof
  · intro B hmem
    obtain ⟨t, ht, rfl⟩ := List.mem_map.1 hmem
    exact (htexts t ht).block

/-- The order of sections does not matter.  A source is a preamble without a section and then texts
that open a section each, and has at most 65531 names.  With the texts in another order it is
assembled if it was before.  Then the code is the same, each text has its section with its length,
each symbol has its section, offset and binding, and the relocations of a section are the same but
for entry numbers, which belong to one entry each, of the same name in both objects. -/
theorem assemble_perm (hpre : Text.Terminated preamble)
    (hbody : ∀ raw ∈ Text.rows preamble, Text.IsBody raw)
    (htexts : ∀ t ∈ texts, SectionText t) (hp : texts.Perm texts')
    (hnames : (Program.ofSource (preamble ++ String.join texts)).names.toFinset.card ≤ 65531) :
    ((∃ a, assemble (preamble ++ String.join texts) = .ok a) ↔
      ∃ a', assemble (preamble ++ String.join texts') = .ok a') ∧
    ∀ a a', assemble (preamble ++ String.join texts) = .ok a →
      assemble (preamble ++ String.join texts') = .ok a' →
      a.object.code = a'.object.code ∧
      (∃ extent : String → Extent, a.object.sections = texts.map extent ∧
        a'.object.sections = texts'.map extent) ∧
      (∀ n, (a.object.symbols.get? n).map (fun s => (s.home, s.offset, s.binding)) =
        (a'.object.symbols.get? n).map fun s => (s.home, s.offset, s.binding)) ∧
      ∀ k, List.Forall₂ (fun (r r' : Relocation) => r.offset = r'.offset ∧ r.kind = r'.kind ∧
          ∃ n, a.object.symbols.namesOf r.entry = [n] ∧ a'.object.symbols.namesOf r'.entry = [n])
        (a.object.relocations.get k) (a'.object.relocations.get k) := by
  refine ⟨⟨?_, ?_⟩, fun a a' h h' => ?_⟩
  · rintro ⟨a, h⟩
    obtain ⟨a', h', -⟩ := exists_assemble_source_perm hpre hbody htexts hp h
    exact ⟨a', h'⟩
  · rintro ⟨a', h'⟩
    obtain ⟨a, h, -⟩ := exists_assemble_source_perm hpre hbody
      (fun t ht => htexts t (hp.mem_iff.2 ht)) hp.symm h'
    exact ⟨a, h⟩
  · obtain ⟨x, hx, hcode, hsections, hsections', hagree, hrelocations⟩ :=
      exists_assemble_source_perm hpre hbody htexts hp h
    obtain rfl := Except.ok.inj (hx.symm.trans h')
    have hlen : a.object.symbols.users.length ≤ 65531 := by
      obtain ⟨l, out, there, ht, hf, -, -, rfl⟩ := Program.assemble_eq_ok_iff.1 h
      exact (Program.length_users_of_takes (Program.takes_steps_iff.2 ⟨ht, hf⟩)).trans_le hnames
    have hextent : ∀ {es : List Extent} {ts : List String},
        es.map some = (ts.map Text.lines).map Line.extent? →
        es = ts.map fun t => (Line.extent? (Text.lines t)).getD (.unplaced .text 0) := by
      intro es ts he
      have he := congrArg (List.map fun e : Option Extent => e.getD (.unplaced .text 0)) he
      simpa [Function.comp_def] using he
    refine ⟨hcode, ⟨_, hextent hsections, hextent hsections'⟩, hagree, fun k => ?_⟩
    refine (hrelocations k).imp fun r r' hr => ?_
    exact ⟨hr.offset.symm, hr.kind.symm, hr.entry hlen⟩

theorem assemble_perm_data_and_text :
    ∃ a a', assemble (".global z\n" ++ String.join
        [".data\nx: .word y, x\n", ".text\ny: mov r1, $x\ncall z\n"]) = .ok a ∧
      assemble (".global z\n" ++ String.join
        [".text\ny: mov r1, $x\ncall z\n", ".data\nx: .word y, x\n"]) = .ok a' ∧
      a.object.code = a'.object.code ∧ a.object.sections ≠ a'.object.sections ∧
      ∀ k, (a.object.relocations.get k).map Relocation.offset =
        (a'.object.relocations.get k).map Relocation.offset := by
  have hdata : SectionText ".data\nx: .word y, x\n" :=
    sectionText_of_rows (k := .data) (by decide +kernel)
      (show Text.rows ".data\nx: .word y, x\n" = [".data", "x: .word y, x"] by decide +kernel)
      (by decide +kernel) (by decide +kernel)
  have htext : SectionText ".text\ny: mov r1, $x\ncall z\n" :=
    sectionText_of_rows (k := .text) (by decide +kernel)
      (show Text.rows ".text\ny: mov r1, $x\ncall z\n" = [".text", "y: mov r1, $x", "call z"]
        by decide +kernel)
      (by decide +kernel) (by decide +kernel)
  have hbody : ∀ raw ∈ Text.rows ".global z\n", Text.IsBody raw := by
    rw [show Text.rows ".global z\n" = [".global z"] by decide +kernel]
    exact fun raw hraw => List.mem_singleton.1 hraw ▸ Text.isBody_of_ofRow? (by decide +kernel)
  obtain ⟨a, h⟩ := Results.exists_of_isSome (x := assemble (".global z\n" ++ String.join
    [".data\nx: .word y, x\n", ".text\ny: mov r1, $x\ncall z\n"])) (by decide +kernel)
  obtain ⟨hiff, hall⟩ := @assemble_perm ".global z\n"
    [".data\nx: .word y, x\n", ".text\ny: mov r1, $x\ncall z\n"]
    [".text\ny: mov r1, $x\ncall z\n", ".data\nx: .word y, x\n"]
    (.inr (by decide +kernel)) hbody (by simp [hdata, htext]) (.swap _ _ _) (by decide +kernel)
  obtain ⟨a', h'⟩ := hiff.1 ⟨a, h⟩
  obtain ⟨hcode, ⟨extent, hsections, hsections'⟩, -, hrelocations⟩ := hall a a' h h'
  refine ⟨a, a', h, h', hcode, ?_, fun k => ?_⟩
  · have hkinds : (assemble (".global z\n" ++ String.join
        [".data\nx: .word y, x\n", ".text\ny: mov r1, $x\ncall z\n"])).toOption.map
        (fun a => a.object.sections.map Extent.kind) = some [.data, .text] := by decide +kernel
    rw [h] at hkinds
    have hkinds : a.object.sections.map Extent.kind = [.data, .text] := Option.some.inj hkinds
    rw [hsections] at hkinds ⊢
    rw [hsections']
    obtain ⟨hd, hkinds⟩ := List.cons.inj hkinds
    intro he
    rw [(List.cons.inj he).1, (List.cons.inj hkinds).1] at hd
    cases hd
  · rw [← List.forall₂_eq_eq_eq, List.forall₂_map_left_iff, List.forall₂_map_right_iff]
    exact (hrelocations k).imp fun _ _ hr => hr.1

end

end SS16
