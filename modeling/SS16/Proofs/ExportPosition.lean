import SS16.Proofs.Emission.Blocks
import SS16.Proofs.Emission.Entries
import SS16.Proofs.Layout.Exports
import SS16.Proofs.Source.Blocks

/-!
# SS16.Proofs.ExportPosition — the position of an export does not matter

A name can be exported before it is seen, after its label or between the two, and only whether it is
exported in the end counts.  So a line that only exports names can stand anywhere.  Main statements:
`Output.emits_core_iff`, `exists_assemble_core` and `assemble_move_export`.
-/

namespace SS16

/-! ### Lines -/

theorem Output.emits_core_iff {symbols : SymbolTable} {lines : List Line} {out out' : Output}
    {here there : Option Place} :
    out.Emits symbols here (Line.core lines) out' there ↔
      out.Emits symbols here lines out' there := by
  induction lines generalizing out here with
  | nil => rfl
  | cons line lines ih =>
    unfold Line.core at ih ⊢
    rw [List.filter_cons, emits_cons]
    by_cases h : line.isExport
    · rw [if_neg (by simp [h]), ih]
      simp only [Line.lays_outside_iff (Line.opens?_of_isExport h) (Line.occupies_of_isExport h)]
      constructor
      · intro he
        exact ⟨out, here, ⟨rfl, rfl⟩, he⟩
      · rintro ⟨mid, m, ⟨rfl, rfl⟩, he⟩
        exact he
    · rw [if_pos (by simp [h]), emits_cons]
      simp only [ih]

theorem Line.isExport_unnumbered (line : Line) : line.unnumbered.isExport = line.isExport := by
  obtain ⟨row, labels, statement⟩ := line
  cases labels with
  | cons n labels => rfl
  | nil =>
    cases statement with
    | none => rfl
    | some s => cases s <;> rfl

theorem Line.map_statement_core {lines ls : List Line} (h : lines.map unnumbered = ls) :
    (core lines).map statement = (core ls).map statement := by
  have hcore : core ls = (core lines).map unnumbered := by
    have hexport : (fun line : Line => !line.isExport) ∘ unnumbered = fun line => !line.isExport :=
      funext fun line => congrArg _ line.isExport_unnumbered
    unfold core
    rw [← h, List.filter_map, hexport]
  rw [hcore, map_statement_unnumbered]

section

variable {lines lines' ls ls' : List Line}

/-- If lines are assembled, so are they in another order of those that only export names.  They have
the same sections and the same code, their symbols have the same meanings, and their relocations
differ in entry numbers only. -/
theorem exists_assemble_core (hl : lines.map Line.unnumbered = ls)
    (hl' : lines'.map Line.unnumbered = ls') (hp : ls.Perm ls')
    (hc : Line.core ls = Line.core ls')
    (hlabels : ∀ line ∈ ls, ∀ n ∈ line.labels, Identifier.isValid n) {a : Assembly}
    (h : (Program.mk lines none).assemble = .ok a) :
    ∃ a', (Program.mk lines' none).assemble = .ok a' ∧ a.object.sections = a'.object.sections ∧
      a.object.code = a'.object.code ∧ a.object.symbols.Agree a'.object.symbols ∧
      ∀ k, List.Forall₂ (Relocation.Alike fun x y => a.object.symbols.users.length ≤ 65531 →
          a.object.symbols.SameEntry a'.object.symbols x y)
        (a.object.relocations.get k) (a'.object.relocations.get k) := by
  obtain ⟨l, out, there, ht, -, hu, he, rfl⟩ := Program.assemble_eq_ok_iff.1 h
  have ht := (Layout.takes_unnumbered hl).1 ht
  obtain ⟨l', ht', hu', hagree, hrenumbers⟩ :=
    ht.reordered hlabels (Line.reordered_of_core hp hc) hu
  have hstatement : (Line.core lines').map Line.statement =
      (Line.core lines).map Line.statement := by
    rw [Line.map_statement_core hl, Line.map_statement_core hl', hc]
  obtain ⟨out', he', hadd⟩ := (Output.emits_core_iff.2 he).renumbered hrenumbers hstatement .fresh
  have he' := Output.emits_core_iff.1 he'
  refine ⟨_, Program.assemble_eq_ok_iff.2
    ⟨l', out', there, (Layout.takes_unnumbered hl').2 ht', rfl, hu', he', rfl⟩,
    ht.extents_eq_of_core ht' hc, ?_, hagree, fun k => ?_⟩
  · refine BySection.eq_of_get ((keys_fresh he).trans (keys_fresh he').symm) fun k => ?_
    obtain ⟨bs, hbs, hbs'⟩ := hadd.code k
    exact hbs.trans hbs'.symm
  · obtain ⟨rs, qs, hrs, hqs, hrel⟩ := hadd.relocations k
    have hfresh : Output.fresh.relocations.get k = [] := rfl
    rw [hfresh, List.nil_append] at hrs hqs
    show List.Forall₂ _ (out.relocations.get k) (out'.relocations.get k)
    rw [hrs, hqs]
    exact hrel

end

/-! ### Sources -/

section

variable {source source' g : String} {xs ys xs' ys' front front' rest : List String}

/-- Rows in another order of those that only export names, in front of rows that stay. -/
theorem exists_assemble_front (hrows : Text.rows source = front ++ rest)
    (hrows' : Text.rows source' = front' ++ rest) (hp : front.Perm front')
    (hc : Line.core (front.filterMap Line.ofRow?) = Line.core (front'.filterMap Line.ofRow?))
    (hstop : ∀ raw ∈ front, ∀ row line, Line.parse row raw = .ok line →
      line.statement ≠ some .stop) {a : Assembly} (h : assemble source = .ok a) :
    ∃ a', assemble source' = .ok a' ∧ a.object.sections = a'.object.sections ∧
      a.object.code = a'.object.code ∧ a.object.symbols.Agree a'.object.symbols ∧
      ∀ k, List.Forall₂ (Relocation.Alike fun x y => a.object.symbols.users.length ≤ 65531 →
          a.object.symbols.SameEntry a'.object.symbols x y)
        (a.object.relocations.get k) (a'.object.relocations.get k) := by
  have hstop' : ∀ raw ∈ front', ∀ row line, Line.parse row raw = .ok line →
      line.statement ≠ some .stop := fun raw hraw => hstop raw (hp.mem_iff.2 hraw)
  obtain ⟨lines, hsource⟩ : ∃ lines, Program.ofSource source = ⟨lines, none⟩ := by
    obtain ⟨-, -, -, -, hf, -⟩ := Program.assemble_eq_ok_iff.1 h
    exact ⟨_, by rw [← hf]⟩
  have hreads : Reads 0 (Text.rows source) lines := Program.ofRows_eq_iff.1 hsource
  rw [hrows, reads_append hstop] at hreads
  obtain ⟨ls, ms, hfront, hrest, rfl⟩ := hreads
  obtain ⟨hall, hls⟩ := hfront.map_unnumbered hstop
  obtain ⟨ls', hfront'⟩ :=
    exists_reads (fun raw hraw => hall raw (hp.mem_iff.2 hraw)) hstop' 0
  obtain ⟨-, hls'⟩ := hfront'.map_unnumbered hstop'
  have hsource' : Program.ofSource source' = ⟨ls' ++ ms, none⟩ := by
    refine Program.ofRows_eq_iff.2 ?_
    rw [hrows', reads_append hstop']
    exact ⟨ls', ms, hfront', hp.length_eq ▸ hrest, rfl⟩
  have hlabels : ∀ line ∈ (ls ++ ms).map Line.unnumbered, ∀ n ∈ line.labels,
      Identifier.isValid n := by
    intro line hline n hn
    obtain ⟨numbered, hmem, rfl⟩ := List.mem_map.1 hline
    obtain ⟨row, raw, -, hparse⟩ := Program.exists_parse_of_mem_lines
      (show numbered ∈ (Program.ofSource source).lines by rw [hsource]; exact hmem)
    exact Line.isValid_of_mem_labels hparse hn
  unfold assemble at h ⊢
  rw [hsource] at h
  rw [hsource']
  refine exists_assemble_core rfl rfl ?_ ?_ hlabels h
  · rw [List.map_append, List.map_append, hls, hls']
    exact (hp.filterMap Line.ofRow?).append_right _
  · unfold Line.core at hc ⊢
    rw [List.map_append, List.map_append, hls, hls', List.filter_append, List.filter_append, hc]

theorem core_filterMap_export {names : List String}
    (hg : Line.parse 0 g = .ok ⟨0, [], some (.global names)⟩) (as bs : List String) :
    Line.core ((as ++ g :: bs).filterMap Line.ofRow?) =
      Line.core ((as ++ bs).filterMap Line.ofRow?) := by
  have hg : Line.ofRow? g = some ⟨0, [], some (.global names)⟩ := Line.ofRow?_of_parse hg
  unfold Line.core
  rw [List.filterMap_append, List.filterMap_append, List.filterMap_cons_some hg,
    List.filter_append, List.filter_append, List.filter_cons_of_neg (by simp [Line.isExport])]

/-- Up to the later of both positions of an export the rows are the same but for their order. -/
theorem exists_fronts
    (hg : ∀ row, ∃ names, Line.parse row g = .ok ⟨row, [], some (.global names)⟩)
    (hrows : Text.rows source = xs ++ g :: ys) (hrows' : Text.rows source' = xs' ++ g :: ys')
    (hothers : xs ++ ys = xs' ++ ys')
    (hstop : ∀ raw ∈ xs, ∀ row line, Line.parse row raw = .ok line →
      line.statement ≠ some .stop)
    (hstop' : ∀ raw ∈ xs', ∀ row line, Line.parse row raw = .ok line →
      line.statement ≠ some .stop) :
    ∃ front front' rest, Text.rows source = front ++ rest ∧ Text.rows source' = front' ++ rest ∧
      front.Perm front' ∧
      Line.core (front.filterMap Line.ofRow?) = Line.core (front'.filterMap Line.ofRow?) ∧
      ∀ raw ∈ front, ∀ row line, Line.parse row raw = .ok line → line.statement ≠ some .stop := by
  obtain ⟨names, hparse⟩ := hg 0
  have hcore := core_filterMap_export hparse
  have hends : ∀ row line, Line.parse row g = .ok line → line.statement ≠ some .stop := by
    intro row line hline
    obtain ⟨names, hn⟩ := hg row
    obtain rfl := Except.ok.inj (hn.symm.trans hline)
    simp
  rcases List.append_eq_append_iff.1 hothers with ⟨zs, rfl, rfl⟩ | ⟨zs, rfl, rfl⟩
  · refine ⟨xs ++ g :: zs, xs ++ zs ++ [g], ys', ?_, ?_, ?_, ?_, ?_⟩
    · rw [hrows, List.append_assoc, List.cons_append]
    · rw [hrows', List.append_assoc (xs ++ zs), List.singleton_append]
    · exact List.perm_middle.trans (List.perm_append_singleton g (xs ++ zs)).symm
    · rw [hcore, hcore, List.append_nil]
    · intro raw hraw
      rcases List.mem_append.1 hraw with hraw | hraw
      · exact hstop raw hraw
      · rcases List.mem_cons.1 hraw with rfl | hraw
        · exact hends
        · exact hstop' raw (List.mem_append_right xs hraw)
  · refine ⟨xs' ++ zs ++ [g], xs' ++ g :: zs, ys, ?_, ?_, ?_, ?_, ?_⟩
    · rw [hrows, List.append_assoc (xs' ++ zs), List.singleton_append]
    · rw [hrows', List.append_assoc, List.cons_append]
    · exact (List.perm_append_singleton g (xs' ++ zs)).trans List.perm_middle.symm
    · rw [hcore, hcore, List.append_nil]
    · intro raw hraw
      rcases List.mem_append.1 hraw with hraw | hraw
      · exact hstop raw hraw
      · exact List.mem_singleton.1 hraw ▸ hends

/-- The position of an export does not matter.  A source has at most 65531 names and a row that only
exports names, and has this row somewhere else, in front of the row that ends it if there is one.
Then it is assembled if it was before.  Sections and code are the same, each symbol has its section,
offset and binding, and the relocations of a section are the same but for entry numbers, which belong
to one entry each, of the same name in both objects. -/
theorem assemble_move_export
    (hg : ∀ row, ∃ names, Line.parse row g = .ok ⟨row, [], some (.global names)⟩)
    (hrows : Text.rows source = xs ++ g :: ys) (hrows' : Text.rows source' = xs' ++ g :: ys')
    (hothers : xs ++ ys = xs' ++ ys')
    (hstop : ∀ raw ∈ xs, ∀ row line, Line.parse row raw = .ok line →
      line.statement ≠ some .stop)
    (hstop' : ∀ raw ∈ xs', ∀ row line, Line.parse row raw = .ok line →
      line.statement ≠ some .stop)
    (hnames : (Program.ofSource source).names.toFinset.card ≤ 65531) :
    ((∃ a, assemble source = .ok a) ↔ ∃ a', assemble source' = .ok a') ∧
    ∀ a a', assemble source = .ok a → assemble source' = .ok a' →
      a.object.sections = a'.object.sections ∧ a.object.code = a'.object.code ∧
      (∀ n, (a.object.symbols.get? n).map (fun s => (s.home, s.offset, s.binding)) =
        (a'.object.symbols.get? n).map fun s => (s.home, s.offset, s.binding)) ∧
      ∀ k, List.Forall₂ (fun (r r' : Relocation) => r.offset = r'.offset ∧ r.kind = r'.kind ∧
          ∃ n, a.object.symbols.namesOf r.entry = [n] ∧ a'.object.symbols.namesOf r'.entry = [n])
        (a.object.relocations.get k) (a'.object.relocations.get k) := by
  obtain ⟨front, front', rest, hsplit, hsplit', hp, hc, hfront⟩ :=
    exists_fronts hg hrows hrows' hothers hstop hstop'
  have hfront' : ∀ raw ∈ front', ∀ row line, Line.parse row raw = .ok line →
      line.statement ≠ some .stop := fun raw hraw => hfront raw (hp.mem_iff.2 hraw)
  refine ⟨⟨?_, ?_⟩, fun a a' h h' => ?_⟩
  · rintro ⟨a, h⟩
    obtain ⟨a', h', -⟩ := exists_assemble_front hsplit hsplit' hp hc hfront h
    exact ⟨a', h'⟩
  · rintro ⟨a', h'⟩
    obtain ⟨a, h, -⟩ := exists_assemble_front hsplit' hsplit hp.symm hc.symm hfront' h'
    exact ⟨a, h⟩
  · obtain ⟨x, hx, hsections, hcode, hagree, hrelocations⟩ :=
      exists_assemble_front hsplit hsplit' hp hc hfront h
    obtain rfl := Except.ok.inj (hx.symm.trans h')
    have hlen : a.object.symbols.users.length ≤ 65531 := by
      obtain ⟨l, out, there, ht, hf, -, -, rfl⟩ := Program.assemble_eq_ok_iff.1 h
      exact (Program.length_users_of_takes (Program.takes_steps_iff.2 ⟨ht, hf⟩)).trans_le hnames
    refine ⟨hsections, hcode, hagree, fun k => (hrelocations k).imp fun r r' hr => ?_⟩
    exact ⟨hr.offset.symm, hr.kind.symm, hr.entry hlen⟩

theorem assemble_move_export_behind_use :
    ∃ a a', assemble ".global f\n.text\ncall f\nx: call g\n.word f, x\nf: ret\n.global g" =
        .ok a ∧
      assemble ".text\ncall f\nx: call g\n.word f, x\nf: ret\n.global f\n.global g" = .ok a' ∧
      a.object.code = a'.object.code ∧ a.object.symbols ≠ a'.object.symbols ∧
      ∀ k, (a.object.relocations.get k).map Relocation.offset =
        (a'.object.relocations.get k).map Relocation.offset := by
  obtain ⟨a, h⟩ := Results.exists_of_isSome (x := assemble
    ".global f\n.text\ncall f\nx: call g\n.word f, x\nf: ret\n.global g") (by decide +kernel)
  have hread : Line.ofRow? ".global f" = some ⟨0, [], some (.global ["f"])⟩ := by decide +kernel
  have hparse : ∀ row, ∃ names, Line.parse row ".global f" = .ok ⟨row, [], some (.global names)⟩ :=
    fun row => ⟨["f"], Line.parse_of_ofRow? hread row⟩
  have hstop : ∀ raw ∈ [".text", "call f", "x: call g", ".word f, x", "f: ret"],
      ∀ row line, Line.parse row raw = .ok line → line.statement ≠ some .stop := by
    intro raw hraw row line hp hs
    have hall : ∀ raw ∈ [".text", "call f", "x: call g", ".word f, x", "f: ret"],
        ∀ line ∈ Line.ofRow? raw, line.statement ≠ some .stop := by decide +kernel
    exact hall raw hraw line.unnumbered (Line.ofRow?_of_parse hp) hs
  obtain ⟨hiff, hall⟩ := @assemble_move_export
    ".global f\n.text\ncall f\nx: call g\n.word f, x\nf: ret\n.global g"
    ".text\ncall f\nx: call g\n.word f, x\nf: ret\n.global f\n.global g" ".global f" []
    [".text", "call f", "x: call g", ".word f, x", "f: ret", ".global g"]
    [".text", "call f", "x: call g", ".word f, x", "f: ret"] [".global g"] hparse
    (by decide +kernel) (by decide +kernel) rfl (by simp) hstop (by decide +kernel)
  obtain ⟨a', h'⟩ := hiff.1 ⟨a, h⟩
  obtain ⟨-, hcode, -, hrelocations⟩ := hall a a' h h'
  refine ⟨a, a', h, h', hcode, ?_, fun k => ?_⟩
  · have hsymbols : (assemble
          ".global f\n.text\ncall f\nx: call g\n.word f, x\nf: ret\n.global g").toOption.map
          (fun a => a.object.symbols) ≠
        (assemble
          ".text\ncall f\nx: call g\n.word f, x\nf: ret\n.global f\n.global g").toOption.map
          (fun a => a.object.symbols) := by decide +kernel
    rw [h, h'] at hsymbols
    exact fun he => hsymbols (congrArg some he)
  · rw [← List.forall₂_eq_eq_eq, List.forall₂_map_left_iff, List.forall₂_map_right_iff]
    exact (hrelocations k).imp fun _ _ hr => hr.1

end

end SS16
