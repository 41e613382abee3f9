import SS16.Proofs.Addresses
import SS16.Proofs.Declarations

/-!
# SS16.Proofs.Tiling — the listing tiles the sections

A line that takes part in a section has one listing entry, which tells where the line begins and what
it lays down, so the entries of a section put one after another are its contents.  Main statements:
`Output.Emits.lists` (what lines add to the listing) and `listing_of_assemble`.
-/

namespace SS16

/-! ### Rows -/

theorem Program.map_row_ofRows (rows : List String) (first : Nat) :
    (ofRows rows first).lines.map Line.row =
      List.range' first (ofRows rows first).lines.length := by
  induction rows generalizing first with
  | nil => rfl
  | cons raw rows ih =>
    rw [ofRows_cons]
    unfold prepend
    cases hp : Line.parse first raw with
    | error f => rfl
    | ok line =>
      dsimp only
      split_ifs
      · exact congrArg (fun row => [row]) (Line.row_of_parse hp)
      · rw [List.map_cons, Line.row_of_parse hp, ih, List.length_cons, List.range'_succ]

theorem Program.row_eq_length {source : String} {xs ys : List Line} {line : Line}
    (h : (ofSource source).lines = xs ++ line :: ys) : line.row = xs.length := by
  have hrows := map_row_ofRows (Text.rows source) 0
  change (ofSource source).lines.map Line.row = List.range' 0 (ofSource source).lines.length at hrows
  have hrow := congrArg (·[xs.length]?) hrows
  rw [h] at hrow
  simpa using hrow

/-! ### What lines add to the listing -/

/-- Between two outputs lines add listing entries, one for each line that takes part in a section, and
the bytes of the entries. -/
structure Output.Lists (out out' : Output) (lines : List Line) (entries : List Entry) : Prop where
  listing : out'.listing.toList = out.listing.toList ++ entries
  rows : entries.map Entry.row = (lines.filter Line.occupies).map Line.row
  code : ∀ k, out'.code.get k =
    out.code.get k ++ (entries.filter fun e => e.kind = k).flatMap Entry.bytes
  bytes : ∀ e ∈ entries, e.kind.hasContents = false → e.bytes = []

namespace Output

theorem lists_nil (out : Output) : out.Lists out [] [] where
  listing := (List.append_nil _).symm
  rows := rfl
  code _ := (List.append_nil _).symm
  bytes e he := by cases he

theorem Lists.append {out mid out' : Output} {xs ys : List Line} {es es' : List Entry}
    (h : out.Lists mid xs es) (h' : mid.Lists out' ys es') :
    out.Lists out' (xs ++ ys) (es ++ es') where
  listing := by rw [h'.listing, h.listing, List.append_assoc]
  rows := by rw [List.map_append, List.filter_append, List.map_append, h.rows, h'.rows]
  code k := by
    rw [h'.code, h.code, List.filter_append, List.flatMap_append, List.append_assoc]
  bytes e he := (List.mem_append.1 he).elim (h.bytes e) (h'.bytes e)

end Output

namespace Line

variable {symbols : SymbolTable} {line : Line} {out out' : Output} {here there : Option Place}

theorem lists_of_not_occupies (h : line.occupies = false) (out : Output) :
    out.Lists out [line] [] where
  listing := (List.append_nil _).symm
  rows := by simp [h]
  code _ := (List.append_nil _).symm
  bytes e he := by cases he

theorem lists_put {p : Place} {s : Statement} (hs : line.statement = some s) (ho : s.occupies)
    (out : Output) (rs : List Relocation) (bs : List UInt8) :
    out.Lists (out.put line.row p rs bs) [line]
      [⟨line.row, p.kind, p.location, if p.kind.hasContents then bs else []⟩] where
  listing := out.listing_put line.row p rs bs
  rows := by
    have hline : line.occupies := by simp [occupies, hs, ho]
    simp [hline]
  code k := by
    rw [out.get_code_put]
    by_cases hk : p.kind = k
    · simp [hk]
    · simp [hk]
  bytes e he hc := by
    obtain rfl := List.mem_singleton.1 he
    exact if_neg (by simp [show p.kind.hasContents = false from hc])

theorem Lays.lists (h : line.Lays symbols out here out' there) :
    ∃ entries, out.Lists out' [line] entries := by
  cases h with
  | pass _ hp =>
    refine ⟨[], lists_of_not_occupies ?_ out⟩
    unfold occupies
    cases hs : line.statement with
    | none => rfl
    | some s => exact (hp s hs).1
  | enter _ k hs =>
    refine ⟨[], lists_of_not_occupies ?_ out⟩
    unfold occupies
    rw [hs]
    rfl
  | put p q s rs bs hs ho => exact ⟨_, lists_put hs ho out rs bs⟩

theorem Lays.entry (h : line.Lays symbols out here out' there) (ho : line.occupies) :
    ∃ p e, here = some p ∧ out.Lists out' [line] [e] ∧ e.row = line.row ∧ e.kind = p.kind ∧
      e.offset = p.location := by
  have hnot : ∀ s, line.statement = some s → s.occupies := by
    intro s hs
    unfold occupies at ho
    rwa [hs] at ho
  cases h with
  | pass _ hp =>
    unfold occupies at ho
    cases hs : line.statement with
    | none => simp [hs] at ho
    | some s =>
      have hso := hnot s hs
      rw [(hp s hs).1] at hso
      cases hso
  | enter _ k hs => cases hnot _ hs
  | put p q s rs bs hs hso => exact ⟨p, _, rfl, lists_put hs hso out rs bs, rfl, rfl, rfl⟩

theorem Lays.countable (h : line.Lays symbols out here out' there) {s : Statement}
    (hs : line.statement = some s) : s.Countable := by
  rintro w args rfl
  cases h with
  | pass _ hp => cases (hp _ hs).1
  | enter _ k hk => cases hs.symm.trans hk
  | put p q s rs bs hs' ho hf hq =>
    obtain rfl := Option.some.inj (hs'.symm.trans hs)
    cases Statement.puts_of_fragment hf with
    | data _ _ _ _ _ hw =>
      rw [← Width.length_of_fragmentsFrom hw]
      have hq := (Place.advance?_eq_some_iff.1 hq).2
      have hlt := q.location.toNat_lt
      omega
    | nothing _ hn => cases hn

end Line

namespace Output

variable {symbols : SymbolTable} {lines : List Line} {out out' : Output} {here there : Option Place}

theorem Emits.lists (h : out.Emits symbols here lines out' there) :
    ∃ entries, out.Lists out' lines entries := by
  induction lines generalizing out here with
  | nil =>
    obtain ⟨rfl, -⟩ := emits_nil.1 h
    exact ⟨[], lists_nil out⟩
  | cons line lines ih =>
    obtain ⟨mid, m, hline, hrest⟩ := emits_cons.1 h
    obtain ⟨es, hes⟩ := hline.lists
    obtain ⟨es', hes'⟩ := ih hrest
    exact ⟨es ++ es', hes.append hes'⟩

theorem Emits.countable (h : out.Emits symbols here lines out' there) {line : Line}
    (hline : line ∈ lines) {s : Statement} (hs : line.statement = some s) : s.Countable := by
  obtain ⟨xs, ys, rfl⟩ := List.append_of_mem hline
  obtain ⟨mid, m, -, he⟩ := emits_append.1 h
  obtain ⟨mid', m', hl, -⟩ := emits_cons.1 he
  exact hl.countable hs

end Output

/-! ### Sources -/

/-- In a source that is assembled, the entry of a line names the section that was opened last, begins
at the size that this section has there, and its bytes stand at that offset in the contents. -/
theorem exists_entry_of_assemble {source : String} {a : Assembly} (h : assemble source = .ok a)
    {xs ys : List Line} {line : Line} (hl : (Program.ofSource source).lines = xs ++ line :: ys)
    (ho : line.occupies) :
    ∃ e ∈ a.listing, e.row = line.row ∧
      (xs.filterMap Line.opens?).getLast? = some e.kind ∧ e.offset.toNat = Line.runningSize xs ∧
      (e.kind.hasContents →
        ((a.object.contents e.kind).drop e.offset.toNat).take e.bytes.length = e.bytes) := by
  obtain ⟨m, l, mid, out, ht, ht', -, he, he', hm, -, rfl⟩ := inStep_of_assemble h hl
  obtain ⟨mid', there, hline, hrest⟩ := Output.emits_cons.1 he'
  obtain ⟨p, e, hp, hlists, hrow, hkind, hoffset⟩ := hline.entry ho
  obtain ⟨es, hbefore⟩ := he.lists
  obtain ⟨es', hafter⟩ := hrest.lists
  have hplace : xs.foldl Line.next none = some p := by
    rw [← hp, ht.place, Line.map_snd_flatMap_located, ← Line.foldl_next]
    rfl
  refine ⟨e, ?_, hrow, ?_, ?_, fun hc => ?_⟩
  · show e ∈ out.listing.toList
    rw [hafter.listing, hlists.listing]
    simp
  · have hlast := Line.kind_foldl_next xs none
    rw [hplace, Option.map_none, Option.or_none] at hlast
    rw [hkind]
    exact hlast.symm
  · have hacc := ht.accepted fun x hx n hn => by
      obtain ⟨row, raw, -, hparse⟩ := Program.exists_parse_of_mem_lines
        (show x ∈ (Program.ofSource source).lines from hl ▸ List.mem_append_left _ hx)
      exact Line.isValid_of_mem_labels hparse hn
    have hsize := (Line.along_fits_iff_sizes hacc.readable
      (fun x hx s hs => he.countable hx hs) hacc.placed).2 hacc.fits
    rw [hplace] at hsize
    rw [hoffset]
    exact hsize
  · show ((out.code.get e.kind).drop e.offset.toNat).take e.bytes.length = e.bytes
    have hlen : (mid.code.get p.kind).length = p.location.toNat := hm.length_place hp (hkind ▸ hc)
    have hbytes : (([e].filter fun x => x.kind = p.kind).flatMap Entry.bytes) = e.bytes := by
      simp [hkind]
    rw [hkind, hoffset, hafter.code, hlists.code, hbytes, List.append_assoc, ← hlen,
      List.drop_left, List.take_left]

theorem lists_of_assemble {source : String} {a : Assembly} (h : assemble source = .ok a) :
    ∃ out, out.code = a.object.code ∧
      Output.fresh.Lists out (Program.ofSource source).lines a.listing := by
  obtain ⟨l, out, there, -, -, -, he, rfl⟩ := Program.assemble_eq_ok_iff.1 h
  obtain ⟨entries, hlists⟩ := he.lists
  obtain rfl : out.listing.toList = entries := hlists.listing
  exact ⟨out, rfl, hlists⟩

theorem Program.pairwise_row (source : String) :
    ((ofSource source).lines.map Line.row).Pairwise (· < ·) := by
  have hrange := map_row_ofRows (Text.rows source) 0
  change (ofSource source).lines.map Line.row = _ at hrange
  rw [hrange]
  exact List.pairwise_lt_range'

theorem pairwise_row_listing {source : String} {a : Assembly} (h : assemble source = .ok a) :
    (a.listing.map Entry.row).Pairwise (· < ·) := by
  obtain ⟨out, -, hlists⟩ := lists_of_assemble h
  rw [hlists.rows]
  exact (Program.pairwise_row source).sublist (List.filter_sublist.map Line.row)

theorem exists_line_of_mem_listing {source : String} {a : Assembly} (h : assemble source = .ok a)
    {e : Entry} (he : e ∈ a.listing) :
    ∃ line ∈ (Program.ofSource source).lines, e.row = line.row ∧ line.occupies := by
  obtain ⟨out, -, hlists⟩ := lists_of_assemble h
  have hmem := List.mem_map_of_mem (f := Entry.row) he
  rw [hlists.rows] at hmem
  obtain ⟨line, hline, hrow⟩ := List.mem_map.1 hmem
  obtain ⟨hline, ho⟩ := List.mem_filter.1 hline
  exact ⟨line, hline, hrow.symm, ho⟩

/-- The listing tiles the sections.  In a source that is assembled, entries come in the order of lines,
and a line has one exactly if it takes part in a section.  The entry of a line names the section that
was opened last in front of the line and begins at the size that this section has there.  The entries
of a section with contents put one after another are its contents, in which each of them stands at its
offset, and entries of `.bss` hold nothing. -/
theorem listing_of_assemble {source : String} {a : Assembly} (h : assemble source = .ok a) :
    (a.listing.map Entry.row).Pairwise (· < ·) ∧
    (∀ e ∈ a.listing, ∃ line ∈ (Program.ofSource source).lines, e.row = line.row) ∧
    (∀ xs line ys, (Program.ofSource source).lines = xs ++ line :: ys →
      line.row = xs.length ∧ ((∃ e ∈ a.listing, e.row = line.row) ↔ line.occupies) ∧
        ∀ e ∈ a.listing, e.row = line.row →
          (xs.filterMap Line.opens?).getLast? = some e.kind ∧
            e.offset.toNat = Line.runningSize xs) ∧
    (∀ k : Section, k.hasContents →
      (a.listing.filter fun e => e.kind = k).flatMap Entry.bytes = a.object.contents k ∧
        ∀ e ∈ a.listing, e.kind = k →
          ((a.object.contents k).drop e.offset.toNat).take e.bytes.length = e.bytes) ∧
    ∀ e ∈ a.listing, e.kind = .bss → e.bytes = [] := by
  obtain ⟨out, hout, hlists⟩ := lists_of_assemble h
  have hrows := pairwise_row_listing h
  -- a row has one entry and one line
  have huniq : ∀ e ∈ a.listing, ∀ e' ∈ a.listing, e.row = e'.row → e = e' := fun e he e' he' =>
    List.inj_on_of_nodup_map (hrows.imp Nat.ne_of_lt) he he'
  have hline : ∀ x ∈ (Program.ofSource source).lines, ∀ y ∈ (Program.ofSource source).lines,
      x.row = y.row → x = y := fun x hx y hy =>
    List.inj_on_of_nodup_map ((Program.pairwise_row source).imp Nat.ne_of_lt) hx hy
  refine ⟨hrows, ?_, ?_, ?_, ?_⟩
  · intro e he
    obtain ⟨line, hmem, hrow, -⟩ := exists_line_of_mem_listing h he
    exact ⟨line, hmem, hrow⟩
  · intro xs line ys hl
    have hmem : line ∈ (Program.ofSource source).lines := by simp [hl]
    have hocc : ∀ e ∈ a.listing, e.row = line.row → line.occupies := by
      intro e he hrow
      obtain ⟨other, hother, hrow', ho⟩ := exists_line_of_mem_listing h he
      rwa [hline line hmem other hother (hrow.symm.trans hrow')]
    refine ⟨Program.row_eq_length hl, ⟨?_, fun ho => ?_⟩, fun e he hrow => ?_⟩
    · rintro ⟨e, he, hrow⟩
      exact hocc e he hrow
    · obtain ⟨e, he, hrow, -⟩ := exists_entry_of_assemble h hl ho
      exact ⟨e, he, hrow⟩
    · obtain ⟨e', he', hrow', hkind, hoffset, -⟩ :=
        exists_entry_of_assemble h hl (hocc e he hrow)
      rw [huniq e he e' he' (hrow.trans hrow'.symm)]
      exact ⟨hkind, hoffset⟩
  · intro k hk
    refine ⟨?_, fun e he hek => ?_⟩
    · have hcode := hlists.code k
      have hfresh : Output.fresh.code.get k = [] := by cases k <;> rfl
      rw [hfresh, List.nil_append, hout] at hcode
      exact hcode.symm
    · obtain ⟨line, hmem, hrow, ho⟩ := exists_line_of_mem_listing h he
      obtain ⟨xs, ys, hl⟩ := List.append_of_mem hmem
      obtain ⟨e', he', hrow', -, -, hbytes⟩ := exists_entry_of_assemble h hl ho
      obtain rfl := huniq e he e' he' (hrow.trans hrow'.symm)
      rw [← hek] at hk ⊢
      exact hbytes hk
  · intro e he hk
    exact hlists.bytes e he (by rw [hk]; rfl)

theorem listing_of_assemble_data_and_bss :
    ∃ a, assemble ".data\nx: .char 1\n.align 4\n.word x\n.bss\n.skip 3\n.end\n.data" = .ok a ∧
      (a.listing.map Entry.row).Pairwise (· < ·) ∧
      (∃ e ∈ a.listing, e.row = 3 ∧ e.kind = .data ∧ e.offset.toNat = 4) ∧
      (a.listing.filter fun e => e.kind = .data).flatMap Entry.bytes = a.object.contents .data ∧
      ∀ e ∈ a.listing, e.kind = .bss → e.bytes = [] := by
  obtain ⟨a, h⟩ := Results.exists_of_isSome
    (x := assemble ".data\nx: .char 1\n.align 4\n.word x\n.bss\n.skip 3\n.end\n.data")
    (by decide +kernel)
  have hlines : (Program.ofSource
      ".data\nx: .char 1\n.align 4\n.word x\n.bss\n.skip 3\n.end\n.data").lines =
        [⟨0, [], some (.enter .data)⟩, ⟨1, ["x"], some (.data .char ["1"])⟩,
          ⟨2, [], some (.align 4)⟩] ++ ⟨3, [], some (.data .word ["x"])⟩ ::
        [⟨4, [], some (.enter .bss)⟩, ⟨5, [], some (.skip 3)⟩, ⟨6, [], some .stop⟩] := by
    decide +kernel
  obtain ⟨hrows, -, hentries, hcontents, hbss⟩ := listing_of_assemble h
  obtain ⟨-, hiff, hentry⟩ := hentries _ _ _ hlines
  obtain ⟨e, he, hrow⟩ := hiff.2 rfl
  obtain ⟨hkind, hoffset⟩ := hentry e he hrow
  refine ⟨a, h, hrows, ⟨e, he, hrow, (Option.some.inj hkind).symm, hoffset⟩,
    (hcontents .data rfl).1, hbss⟩

end SS16
