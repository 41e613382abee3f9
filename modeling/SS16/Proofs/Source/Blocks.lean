import SS16.Proofs.Layout.Blocks
import SS16.Proofs.Source.Declarations

/-!
# SS16.Proofs.Source.Blocks — texts put together

Texts that end in a line feed can be put together row by row, and a row reads as the same line
wherever it stands, but for its number.  Main statements: `Text.rows_append_join`,
`Reads.map_unnumbered`, `reads_append` and `SectionText.block`.
-/

namespace SS16

/-! ### Rows of texts -/

namespace Text

def Terminated (text : String) : Prop := text.toList = [] ∨ text.toList.getLast? = some '\n'

theorem rowsOf_append {xs : List Char} (h : xs = [] ∨ xs.getLast? = some '\n') (ys : List Char) :
    rowsOf (xs ++ ys) = rowsOf xs ++ rowsOf ys := by
  rcases h with rfl | h
  · rfl
  · obtain ⟨xs, rfl⟩ := List.getLast?_eq_some_iff.1 h
    have hne := List.splitOnP_ne_nil (· == '\n') ys
    have hpieces : ∀ zs : List Char, (xs ++ '\n' :: zs).splitOnP (· == '\n') =
        xs.splitOnP (· == '\n') ++ zs.splitOnP (· == '\n') := fun zs =>
      List.splitOnP_append_cons xs zs (by decide)
    rw [List.append_assoc, List.singleton_append]
    unfold rowsOf
    dsimp only
    rw [hpieces, hpieces, List.splitOnP_nil, List.dropLast_append_of_ne_nil hne,
      List.getLast?_append_of_ne_nil _ hne, List.dropLast_concat, List.getLast?_concat]
    simp

theorem rows_append {text : String} (h : Terminated text) (more : String) :
    rows (text ++ more) = rows text ++ rows more := by
  unfold rows
  rw [String.toList_append, rowsOf_append h, List.map_append]

theorem rows_append_join {text : String} (h : Terminated text) {texts : List String}
    (hall : ∀ t ∈ texts, Terminated t) :
    rows (text ++ String.join texts) = rows text ++ texts.flatMap rows := by
  rw [rows_append h]
  congr 1
  induction texts with
  | nil => rfl
  | cons t texts ih =>
    rw [String.join_cons, rows_append (hall t List.mem_cons_self), List.flatMap_cons,
      ih fun s hs => hall s (List.mem_cons_of_mem t hs)]

end Text

/-! ### Lines of rows -/

namespace Line

def unnumbered (line : Line) : Line := { line with row := 0 }

def ofRow? (raw : String) : Option Line := (parse 0 raw).toOption

theorem ofRow?_of_parse {row : Nat} {raw : String} {line : Line} (h : parse row raw = .ok line) :
    ofRow? raw = some line.unnumbered := by
  obtain ⟨s, hs, rfl⟩ := Results.map_eq_ok_iff.1 h
  unfold ofRow? parse ofWords
  rw [hs]
  rfl

theorem parse_of_ofRow? {raw : String} {line : Line} (h : ofRow? raw = some line) (row : Nat) :
    parse row raw = .ok { line with row := row } := by
  unfold ofRow? parse ofWords at h
  unfold parse ofWords
  cases hs : statementOf ((Text.codeWords raw).dropWhile isLabel) with
  | error f =>
    rw [hs] at h
    cases h
  | ok s =>
    rw [hs] at h
    cases h
    rfl

theorem map_statement_unnumbered (lines : List Line) :
    (lines.map unnumbered).map statement = lines.map statement := by
  rw [List.map_map]
  rfl

theorem flatMap_steps_unnumbered (lines : List Line) :
    (lines.map unnumbered).flatMap steps = lines.flatMap steps := by
  rw [List.flatMap_map]
  rfl

end Line

theorem Layout.takes_unnumbered {l l' : Layout} {lines ls : List Line}
    (hl : lines.map Line.unnumbered = ls) :
    l.Takes (lines.flatMap Line.located) l' ↔ l.Takes (ls.flatMap Line.located) l' := by
  refine takes_congr ?_
  rw [Line.map_snd_flatMap_located, Line.map_snd_flatMap_located, ← hl,
    Line.flatMap_steps_unnumbered]

/-- Whether a row, if it can be read, neither opens a section nor ends the source. -/
def Text.IsBody (raw : String) : Prop :=
  ∀ row line, Line.parse row raw = .ok line → line.opens? = none ∧ line.statement ≠ some .stop

theorem Text.isBody_of_ofRow? {raw : String}
    (h : ∀ line ∈ Line.ofRow? raw, line.opens? = none ∧ line.statement ≠ some .stop) :
    IsBody raw :=
  fun _ line hp => h line.unnumbered (Line.ofRow?_of_parse hp)

theorem Line.opens?_of_isBody {raw : String} (h : Text.IsBody raw) {line : Line}
    (hl : ofRow? raw = some line) : line.opens? = none :=
  (h 0 _ (parse_of_ofRow? hl 0)).1

theorem Reads.map_unnumbered {row : Nat} {rows : List String} {lines : List Line}
    (h : Reads row rows lines)
    (hstop : ∀ raw ∈ rows, ∀ row line, Line.parse row raw = .ok line →
      line.statement ≠ some .stop) :
    (∀ raw ∈ rows, (Line.ofRow? raw).isSome) ∧
      lines.map Line.unnumbered = rows.filterMap Line.ofRow? := by
  induction h with
  | nil row => exact ⟨by simp, rfl⟩
  | stop rows h hs => exact absurd hs (hstop _ List.mem_cons_self _ _ h)
  | cons h hs rest ih =>
    obtain ⟨hall, hlines⟩ := ih fun raw hraw => hstop raw (List.mem_cons_of_mem _ hraw)
    have hrow := Line.ofRow?_of_parse h
    refine ⟨List.forall_mem_cons.2 ⟨by rw [hrow]; rfl, hall⟩, ?_⟩
    rw [List.map_cons, List.filterMap_cons_some hrow, hlines]

/-- Behind rows of which none ends the source the rest is read on its own. -/
theorem reads_append {row : Nat} {rows more : List String} {lines : List Line}
    (hstop : ∀ raw ∈ rows, ∀ row line, Line.parse row raw = .ok line →
      line.statement ≠ some .stop) :
    Reads row (rows ++ more) lines ↔
      ∃ xs ys, Reads row rows xs ∧ Reads (row + rows.length) more ys ∧ lines = xs ++ ys := by
  induction rows generalizing row lines with
  | nil =>
    constructor
    · intro h
      exact ⟨[], lines, .nil row, h, rfl⟩
    · rintro ⟨xs, ys, hx, hy, rfl⟩
      cases hx
      exact hy
  | cons raw rows ih =>
    have ih := fun {row lines} => @ih row lines fun r hr => hstop r (List.mem_cons_of_mem raw hr)
    have hlen : ∀ row, row + (raw :: rows).length = row + 1 + rows.length := by
      intro row
      rw [List.length_cons]
      omega
    constructor
    · intro h
      cases h with
      | stop _ hp hs => exact absurd hs (hstop raw List.mem_cons_self _ _ hp)
      | cons hp hs rest =>
        obtain ⟨xs, ys, hx, hy, rfl⟩ := ih.1 rest
        exact ⟨_ :: xs, ys, .cons hp hs hx, hlen row ▸ hy, rfl⟩
    · rintro ⟨xs, ys, hx, hy, rfl⟩
      cases hx with
      | stop _ hp hs => exact absurd hs (hstop raw List.mem_cons_self _ _ hp)
      | cons hp hs rest => exact .cons hp hs (ih.2 ⟨_, ys, rest, hlen row ▸ hy, rfl⟩)

theorem exists_reads {rows : List String} (h : ∀ raw ∈ rows, (Line.ofRow? raw).isSome)
    (hstop : ∀ raw ∈ rows, ∀ row line, Line.parse row raw = .ok line →
      line.statement ≠ some .stop) (row : Nat) :
    ∃ lines, Reads row rows lines := by
  induction rows generalizing row with
  | nil => exact ⟨[], .nil row⟩
  | cons raw rows ih =>
    obtain ⟨lines, hlines⟩ := ih (fun r hr => h r (List.mem_cons_of_mem raw hr))
      (fun r hr => hstop r (List.mem_cons_of_mem raw hr)) (row + 1)
    obtain ⟨line, hline⟩ := Option.isSome_iff_exists.1 (h raw List.mem_cons_self)
    have hparse := Line.parse_of_ofRow? hline row
    exact ⟨_, .cons hparse (hstop raw List.mem_cons_self row _ hparse) hlines⟩

/-! ### Blocks of text -/

/-- A text that opens a section, once and on its first row, which has no label, and that does not end
the source. -/
structure SectionText (text : String) : Prop where
  terminated : Text.Terminated text
  rows : ∃ first rest, Text.rows text = first :: rest ∧
    (∀ row, ∃ k, Line.parse row first = .ok ⟨row, [], some (.enter k)⟩) ∧
    ∀ raw ∈ rest, Text.IsBody raw

theorem sectionText_of_rows {text first : String} {rest : List String} {k : Section}
    (hend : text.toList.getLast? = some '\n') (hrows : Text.rows text = first :: rest)
    (hfirst : Line.ofRow? first = some ⟨0, [], some (.enter k)⟩)
    (hrest : ∀ raw ∈ rest, ∀ line ∈ Line.ofRow? raw,
      line.opens? = none ∧ line.statement ≠ some .stop) : SectionText text where
  terminated := .inr hend
  rows := ⟨first, rest, hrows, fun row => ⟨k, Line.parse_of_ofRow? hfirst row⟩,
    fun raw hraw => Text.isBody_of_ofRow? (hrest raw hraw)⟩

def Text.lines (text : String) : List Line := (Text.rows text).filterMap Line.ofRow?

namespace SectionText

variable {text : String}

theorem ne_stop (h : SectionText text) : ∀ raw ∈ Text.rows text, ∀ row line,
    Line.parse row raw = .ok line → line.statement ≠ some .stop := by
  obtain ⟨first, rest, hrows, hfirst, hrest⟩ := h.rows
  rw [hrows, List.forall_mem_cons]
  refine ⟨fun row line hp => ?_, fun raw hraw row line hp => (hrest raw hraw row line hp).2⟩
  obtain ⟨k, hk⟩ := hfirst row
  obtain rfl := Except.ok.inj (hk.symm.trans hp)
  simp

theorem block (h : SectionText text) : Line.Block (Text.lines text) := by
  obtain ⟨first, rest, hrows, hfirst, hrest⟩ := h.rows
  obtain ⟨k, hk⟩ := hfirst 0
  unfold Text.lines
  rw [hrows, List.filterMap_cons_some (Line.ofRow?_of_parse hk)]
  refine .intro _ k _ rfl rfl fun line hline => ?_
  obtain ⟨raw, hraw, hl⟩ := List.mem_filterMap.1 hline
  exact Line.opens?_of_isBody (hrest raw hraw) hl

end SectionText

end SS16
