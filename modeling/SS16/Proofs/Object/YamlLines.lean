import SS16.Object.Yaml
import SS16.Proofs.Object.Blocks
import SS16.Proofs.Object.YamlNames

/-!
# SS16.Proofs.Object.YamlLines — the lines of YAML collections are read back

The character of a line at the depth of a collection tells whether an item or an entry starts there
or a line of the one before goes on.  So a collection tells its items or entries, and an item with
known keys its values.  Main statements: `Yaml.sequence_inj`, `Yaml.numbers_inj`,
`Yaml.entry_inj` and `Yaml.IsEntry.flatten_inj`.
-/

namespace SS16.Yaml

open YamlScalar

/-! ### Columns -/

def column (depth : Nat) (line : String) : Option Char := line.toList[depth]?

/-- Whether an item of a sequence starts at a depth. -/
def opensItem (depth : Nat) (line : String) : Bool := column depth line = some '-'

/-- Whether an entry of a mapping starts at a depth. -/
def opensEntry (depth : Nat) (line : String) : Bool :=
  (column depth line).any fun c => !([' ', '-', ':'].contains c)

theorem lt_length_of_column {depth : Nat} {s : String} {c : Char} (h : column depth s = some c) :
    depth < s.toList.length := (List.getElem?_eq_some_iff.1 h).1

theorem column_append {depth : Nat} {s : String} {c : Char} (h : column depth s = some c)
    (t : String) : column depth (s ++ t) = some c := by
  rw [← h, column, column, String.toList_append, List.getElem?_append_left (lt_length_of_column h)]

theorem opensItem_eq_true {depth : Nat} {line : String} (h : column depth line = some '-') :
    opensItem depth line := decide_eq_true h

theorem opensItem_eq_false {depth : Nat} {line : String} (h : column depth line = some ' ') :
    opensItem depth line = false := decide_eq_false (by rw [h]; decide)

theorem exists_column_of_opensEntry {depth : Nat} {line : String} (h : opensEntry depth line) :
    ∃ c, column depth line = some c := by
  obtain ⟨c, hc, -⟩ := (Option.any_eq_true ..).1 h
  exact ⟨c, hc⟩

theorem opensEntry_append {depth : Nat} {s : String} (h : opensEntry depth s) (t : String) :
    opensEntry depth (s ++ t) := by
  obtain ⟨c, hc⟩ := exists_column_of_opensEntry h
  rw [opensEntry, column_append hc, ← hc]
  exact h

/-! ### Lines at a depth -/

def IsIndent (depth : Nat) (s : String) : Prop := s.toList = List.replicate depth ' '

theorem isIndent_zero : IsIndent 0 "" := rfl

theorem isIndent_two : IsIndent 2 "  " := rfl

/-- A line at a depth or deeper, without an end of a line in it. -/
structure IsLine (depth : Nat) (line : String) : Prop where
  indented : ∀ d < depth, column d line = some ' '
  unbroken : Unbroken line

theorem IsLine.append {depth : Nat} {s t : String} (hs : IsLine depth s) (ht : Unbroken t) :
    IsLine depth (s ++ t) where
  indented d hd := column_append (hs.indented d hd) t
  unbroken := hs.unbroken.append ht

theorem IsIndent.isLine {depth : Nat} {s : String} (h : IsIndent depth s) : IsLine depth s where
  indented d hd := by
    rw [column, h, List.getElem?_replicate_of_lt hd]
  unbroken c hc := by
    rw [show s.toList = List.replicate depth ' ' from h] at hc
    rw [List.eq_of_mem_replicate hc]
    decide

theorem IsIndent.column_append {depth : Nat} {s : String} (h : IsIndent depth s) (t : String) :
    column depth (s ++ t) = column 0 t := by
  unfold column
  rw [String.toList_append, h, List.getElem?_append_right (Nat.le_of_eq List.length_replicate),
    List.length_replicate, Nat.sub_self]

/-- A line that starts no entry at a depth: it goes on with one, or has an item there. -/
structure Continues (depth : Nat) (line : String) : Prop where
  isLine : IsLine depth line
  column : ∃ c ∈ [' ', '-', ':'], Yaml.column depth line = some c

theorem Continues.append {depth : Nat} {s t : String} (hs : Continues depth s) (ht : Unbroken t) :
    Continues depth (s ++ t) where
  isLine := hs.isLine.append ht
  column := by
    obtain ⟨c, hmem, hc⟩ := hs.column
    exact ⟨c, hmem, column_append hc t⟩

theorem Continues.opensEntry {depth : Nat} {line : String} (h : Continues depth line) :
    Yaml.opensEntry depth line = false := by
  obtain ⟨c, hmem, hc⟩ := h.column
  rw [Yaml.opensEntry, hc, Option.any_some, List.contains_iff_mem.2 hmem]
  rfl

theorem IsIndent.continues {depth : Nat} {indent s : String} {c : Char} (h : IsIndent depth indent)
    (hs : Unbroken s) (hc : column 0 s = some c) (hmem : c ∈ [' ', '-', ':']) :
    Continues depth (indent ++ s) :=
  ⟨h.isLine.append hs, c, hmem, (h.column_append s).trans hc⟩

/-- The lines of one entry of a mapping at a depth. -/
structure IsEntry (depth : Nat) (ls : List String) : Prop where
  headed : Headed (opensEntry depth) ls
  isLine : ∀ line ∈ ls, IsLine depth line

theorem isEntry_cons {depth : Nat} {line : String} {ls : List String} (h : IsLine depth line)
    (hopens : opensEntry depth line) (hls : ∀ l ∈ ls, Continues depth l) :
    IsEntry depth (line :: ls) where
  headed := ⟨line, ls, rfl, hopens, fun l hl => (hls l hl).opensEntry⟩
  isLine := List.forall_mem_cons.2 ⟨h, fun l hl => (hls l hl).isLine⟩

theorem IsEntry.flatten_inj {depth : Nat} {es es' : List (List String)}
    (h : ∀ ls ∈ es, IsEntry depth ls) (h' : ∀ ls ∈ es', IsEntry depth ls)
    (heq : es.flatten = es'.flatten) : es = es' :=
  flatten_inj_of_headed (fun ls hls => (h ls hls).headed) (fun ls hls => (h' ls hls).headed) heq

/-! ### Fields -/

def fieldLine (lead : String) (f : String × String) : String := lead ++ f.1 ++ ": " ++ f.2

/-- The lines of an item or of an entry, given what the first of them starts with and what the others
do. -/
def fieldLines (first rest : String) : List (String × String) → List String
  | [] => []
  | f :: fs => fieldLine first f :: fs.map (fieldLine rest)

theorem map_fieldLine_zipIdx (lead : Nat → String) (h : ∀ n, lead (n + 1) = lead 1)
    (fields : List (String × String)) :
    (fields.zipIdx.map fun f => fieldLine (lead f.2) f.1) = fieldLines (lead 0) (lead 1) fields := by
  have hrest : ∀ n, ((fields.tail.zipIdx (n + 1)).map fun f => fieldLine (lead f.2) f.1) =
      fields.tail.map (fieldLine (lead 1)) := by
    intro n
    induction fields.tail generalizing n with
    | nil => rfl
    | cons f fs ih => rw [List.zipIdx_cons, List.map_cons, List.map_cons, ih, h]
  cases fields with
  | nil => rfl
  | cons f fs =>
    rw [List.zipIdx_cons, List.map_cons]
    exact congrArg _ (hrest 0)

theorem map_fieldLine (lead : String) (fields : List (String × String)) :
    fields.map (fieldLine lead) = fieldLines lead lead fields := by
  cases fields <;> rfl

theorem exists_of_mem_fieldLines {first rest line : String} {fields : List (String × String)}
    (h : line ∈ fieldLines first rest fields) :
    ∃ f ∈ fields, line = fieldLine first f ∨ line = fieldLine rest f := by
  cases fields with
  | nil => cases h
  | cons f fs =>
    rcases List.mem_cons.1 h with rfl | h
    · exact ⟨f, List.mem_cons_self, .inl rfl⟩
    · obtain ⟨g, hg, rfl⟩ := List.mem_map.1 h
      exact ⟨g, List.mem_cons_of_mem f hg, .inr rfl⟩

theorem column_fieldLine {depth : Nat} {lead : String} {c : Char} (h : column depth lead = some c)
    (f : String × String) : column depth (fieldLine lead f) = some c :=
  column_append (column_append (column_append h _) _) _

def FieldsUnbroken (fields : List (String × String)) : Prop :=
  ∀ f ∈ fields, Unbroken f.1 ∧ Unbroken f.2

theorem FieldsUnbroken.nil : FieldsUnbroken [] := fun _ hf => by cases hf

theorem FieldsUnbroken.cons {key value : String} {fields : List (String × String)}
    (hkey : Unbroken key) (hvalue : Unbroken value) (h : FieldsUnbroken fields) :
    FieldsUnbroken ((key, value) :: fields) := List.forall_mem_cons.2 ⟨⟨hkey, hvalue⟩, h⟩

theorem continues_of_mem_fieldLines {depth : Nat} {first rest line : String}
    {fields : List (String × String)} (hfirst : Continues depth first)
    (hrest : Continues depth rest) (hfields : FieldsUnbroken fields)
    (h : line ∈ fieldLines first rest fields) : Continues depth line := by
  obtain ⟨f, hf, hline⟩ := exists_of_mem_fieldLines h
  obtain ⟨hkey, hvalue⟩ := hfields f hf
  rcases hline with rfl | rfl
  · exact ((hfirst.append hkey).append (by decide)).append hvalue
  · exact ((hrest.append hkey).append (by decide)).append hvalue

theorem fieldLine_inj {lead : String} {f g : String × String} (hkey : f.1 = g.1)
    (h : fieldLine lead f = fieldLine lead g) : f = g := by
  unfold fieldLine at h
  rw [hkey, String.append_right_inj] at h
  exact Prod.ext hkey h

/-- The values of known keys are told by their lines. -/
theorem fieldLines_inj {first rest : String} {fields fields' : List (String × String)}
    (hkeys : fields.map Prod.fst = fields'.map Prod.fst)
    (h : fieldLines first rest fields = fieldLines first rest fields') : fields = fields' := by
  induction fields generalizing fields' first with
  | nil => exact (List.map_eq_nil_iff.1 hkeys.symm).symm
  | cons f fs ih =>
    obtain ⟨g, gs, rfl, hg, hgs⟩ := List.map_eq_cons_iff.1 hkeys.symm
    obtain ⟨hline, hrest⟩ := List.cons.inj h
    rw [map_fieldLine, map_fieldLine] at hrest
    rw [fieldLine_inj hg.symm hline, ih hgs.symm hrest]

/-! ### Collections under a key -/

/-- The first line of a collection. -/
def heading (indent key empty : String) (isEmpty : Bool) : String :=
  if isEmpty then indent ++ key ++ ": " ++ empty else indent ++ key ++ ":"

theorem collection_eq (indent key empty : String) (lines : List String) :
    collection indent key empty lines = heading indent key empty lines.isEmpty :: lines := by
  unfold collection heading
  cases lines <;> rfl

theorem heading_inj {indent key key' empty : String} {isEmpty : Bool}
    (h : heading indent key empty isEmpty = heading indent key' empty isEmpty) : key = key' := by
  cases isEmpty with
  | false => simpa [heading] using h
  | true => simpa [heading] using h

theorem collection_inj {indent key key' empty : String} {lines lines' : List String}
    (h : collection indent key empty lines = collection indent key' empty lines') :
    key = key' ∧ lines = lines' := by
  rw [collection_eq, collection_eq] at h
  obtain ⟨hheading, rfl⟩ := List.cons.inj h
  exact ⟨heading_inj hheading, rfl⟩

/-- A key on one line that starts an entry. -/
structure IsKey (key : String) : Prop where
  opens : opensEntry 0 key
  unbroken : Unbroken key

instance (key : String) : Decidable (IsKey key) :=
  decidable_of_iff (opensEntry 0 key ∧ Unbroken key) ⟨fun h => ⟨h.1, h.2⟩, fun h => ⟨h.1, h.2⟩⟩

theorem isKey_sectionName (k : Section) : IsKey k.name := by
  cases k <;> decide

theorem isKey_render {s : String} (h : IsBare s) (depth : Nat) : IsKey (render depth s) where
  opens := by
    obtain ⟨c, hc, hnot⟩ := exists_head?_render h depth
    rw [opensEntry, column, ← List.head?_eq_getElem?, hc, Option.any_some, Bool.not_eq_true',
      List.contains_eq_mem, decide_eq_false hnot]
  unbroken := unbroken_render h depth

theorem IsIndent.opensEntry {depth : Nat} {indent key : String} (hi : IsIndent depth indent)
    (hkey : opensEntry 0 key) : opensEntry depth (indent ++ key) := by
  rw [Yaml.opensEntry, hi.column_append]
  exact hkey

theorem isEntry_collection {depth : Nat} {indent key empty : String} {lines : List String}
    (hi : IsIndent depth indent) (hkey : IsKey key) (hempty : Unbroken empty)
    (hlines : ∀ line ∈ lines, Continues depth line) :
    IsEntry depth (collection indent key empty lines) := by
  have hopens := hi.opensEntry hkey.opens
  have hline := hi.isLine.append hkey.unbroken
  rw [collection_eq]
  refine isEntry_cons ?_ ?_ hlines
  · cases lines.isEmpty with
    | false => exact hline.append (by decide)
    | true => exact (hline.append (by decide)).append hempty
  · cases lines.isEmpty with
    | false => exact opensEntry_append hopens _
    | true => exact opensEntry_append (opensEntry_append hopens _) _

/-- A mapping of entries at depth 2 is itself an entry at depth 0. -/
theorem isEntry_mapping {key empty : String} {es : List (List String)} (hkey : IsKey key)
    (hempty : Unbroken empty) (h : ∀ ls ∈ es, IsEntry 2 ls) :
    IsEntry 0 (collection "" key empty es.flatten) := by
  refine isEntry_collection isIndent_zero hkey hempty fun line hline => ?_
  obtain ⟨ls, hls, hmem⟩ := List.mem_flatten.1 hline
  have hline := (h ls hls).isLine line hmem
  -- every line of the inner entries has a blank where the outer mapping has its keys
  exact ⟨⟨fun d hd => (Nat.not_lt_zero d hd).elim, hline.unbroken⟩, ' ', by decide,
    hline.indented 0 (by decide)⟩

/-! ### Sequences -/

theorem sequence_eq (indent key : String) (items : List (List (String × String))) :
    sequence indent key items = collection indent key "[]"
      (items.flatMap (fieldLines (indent ++ "- ") (indent ++ "  "))) := by
  have hitem : ∀ fields : List (String × String), (fields.zipIdx.map fun f =>
      indent ++ (if f.2 = 0 then "- " else "  ") ++ f.1.1 ++ ": " ++ f.1.2) =
        fieldLines (indent ++ "- ") (indent ++ "  ") fields :=
    map_fieldLine_zipIdx (fun n => indent ++ if n = 0 then "- " else "  ") fun _ => rfl
  unfold sequence
  rw [funext hitem]

theorem isEntry_sequence {depth : Nat} {indent key : String}
    {items : List (List (String × String))} (hi : IsIndent depth indent) (hkey : IsKey key)
    (hitems : ∀ fields ∈ items, FieldsUnbroken fields) :
    IsEntry depth (sequence indent key items) := by
  rw [sequence_eq]
  refine isEntry_collection hi hkey (by decide) fun line hline => ?_
  obtain ⟨fields, hmem, hline⟩ := List.mem_flatMap.1 hline
  exact continues_of_mem_fieldLines (hi.continues (by decide) (c := '-') rfl (by decide))
    (hi.continues (by decide) (c := ' ') rfl (by decide)) (hitems fields hmem) hline

theorem headed_fieldLines {depth : Nat} {first rest : String}
    (hfirst : column depth first = some '-') (hrest : column depth rest = some ' ')
    {fields : List (String × String)} (hne : fields ≠ []) :
    Headed (opensItem depth) (fieldLines first rest fields) := by
  obtain ⟨f, fs, rfl⟩ := List.exists_cons_of_ne_nil hne
  refine ⟨_, _, rfl, opensItem_eq_true (column_fieldLine hfirst f), fun line hline => ?_⟩
  obtain ⟨g, -, rfl⟩ := List.mem_map.1 hline
  exact opensItem_eq_false (column_fieldLine hrest g)

/-- A sequence tells its key and, if it is known which fields they have, its items. -/
theorem sequence_inj {depth : Nat} {indent key key' : String} {fields : List String}
    {items items' : List (List (String × String))} (hi : IsIndent depth indent)
    (hne : fields ≠ []) (hitems : ∀ x ∈ items, x.map Prod.fst = fields)
    (hitems' : ∀ x ∈ items', x.map Prod.fst = fields)
    (h : sequence indent key items = sequence indent key' items') :
    key = key' ∧ items = items' := by
  have hheaded : ∀ {xs : List (List (String × String))}, (∀ x ∈ xs, x.map Prod.fst = fields) →
      ∀ ls ∈ xs.map (fieldLines (indent ++ "- ") (indent ++ "  ")), Headed (opensItem depth) ls := by
    intro xs hxs ls hls
    obtain ⟨x, hx, rfl⟩ := List.mem_map.1 hls
    refine headed_fieldLines (hi.column_append "- ") (hi.column_append "  ") ?_
    rintro rfl
    exact hne (hxs [] hx).symm
  rw [sequence_eq, sequence_eq] at h
  obtain ⟨hkey, hlines⟩ := collection_inj h
  refine ⟨hkey, eq_of_map_eq (fun x hx y hy he => fieldLines_inj ?_ he)
    (flatten_inj_of_headed (hheaded hitems) (hheaded hitems') hlines)⟩
  exact (hitems x hx).trans (hitems' y hy).symm

theorem isEntry_numbers {depth : Nat} {indent key : String} (hi : IsIndent depth indent)
    (hkey : IsKey key) (ns : List Nat) : IsEntry depth (numbers indent key ns) := by
  refine isEntry_collection hi hkey (by decide) fun line hline => ?_
  obtain ⟨n, -, rfl⟩ := List.mem_map.1 hline
  exact (hi.continues (by decide) (c := '-') rfl (by decide)).append (unbroken_toString n)

theorem numbers_inj {indent key key' : String} {ns ns' : List Nat}
    (h : numbers indent key ns = numbers indent key' ns') : key = key' ∧ ns = ns' := by
  obtain ⟨hkey, hlines⟩ := collection_inj h
  refine ⟨hkey, List.map_injective_iff.2 (fun m n he => ?_) hlines⟩
  rw [String.append_right_inj, Nat.toString_eq_repr, Nat.toString_eq_repr] at he
  exact Nat.repr_injective he

/-! ### Entries with fields -/

theorem entry_eq (key : String) (fields : List (String × String)) :
    entry key fields =
      if isSimpleKey key then ("  " ++ render 4 key ++ ":") :: fieldLines "    " "    " fields
      else ("  ? " ++ render 4 key) :: fieldLines "  : " "    " fields := by
  have hline : ∀ (lead : String) (f : String × String),
      lead ++ (f.1 ++ ": " ++ f.2) = fieldLine lead f := by
    intro lead f
    rw [fieldLine, ← String.append_assoc, ← String.append_assoc]
  have hcomplex := map_fieldLine_zipIdx (fun n => if n = 0 then "  : " else "    ") (fun _ => rfl)
    fields
  unfold entry
  dsimp only
  simp only [hline]
  rw [map_fieldLine, hcomplex]
  rfl

theorem isEntry_entry {key : String} {fields : List (String × String)} (hkey : IsBare key)
    (hfields : FieldsUnbroken fields) : IsEntry 2 (entry key fields) := by
  have hk := isKey_render hkey 4
  have hi := isIndent_two
  have hvalue : Continues 2 "    " := hi.continues (s := "  ") (by decide) (c := ' ') rfl (by decide)
  rw [entry_eq]
  split_ifs with hsimple
  · refine isEntry_cons ((hi.isLine.append hk.unbroken).append (by decide))
      (opensEntry_append (hi.opensEntry hk.opens) _) fun line hline => ?_
    exact continues_of_mem_fieldLines hvalue hvalue hfields hline
  · have hquestion : IsLine 2 "  ? " := hi.isLine.append (t := "? ") (by decide)
    have hmark : Continues 2 "  : " :=
      hi.continues (s := ": ") (by decide) (c := ':') rfl (by decide)
    refine isEntry_cons (hquestion.append hk.unbroken) (opensEntry_append (by decide) _)
      fun line hline => ?_
    exact continues_of_mem_fieldLines hmark hvalue hfields hline

/-- An entry tells the values of known fields, whatever the form of its key. -/
theorem entry_inj {key key' : String} {fields fields' : List (String × String)}
    (hne : fields ≠ []) (hfields : fields.map Prod.fst = fields'.map Prod.fst)
    (h : entry key fields = entry key' fields') : fields = fields' := by
  -- the mark of a complex key's value stands where other fields are indented
  have hmixed : ∀ {fs gs : List (String × String)}, fs ≠ [] →
      fieldLines "    " "    " fs ≠ fieldLines "  : " "    " gs := by
    intro fs gs hfs he
    obtain ⟨f, fs, rfl⟩ := List.exists_cons_of_ne_nil hfs
    cases gs with
    | nil => cases he
    | cons g gs =>
      have hblank : column 2 (fieldLine "    " f) = some ' ' := column_fieldLine rfl f
      have hcolon : column 2 (fieldLine "  : " g) = some ':' := column_fieldLine rfl g
      rw [(List.cons.inj he).1, hcolon] at hblank
      exact absurd hblank (by decide)
  have hne' : fields' ≠ [] := by
    rintro rfl
    exact hne (List.map_eq_nil_iff.1 hfields)
  rw [entry_eq, entry_eq] at h
  split_ifs at h with hk hk' hk'
  · exact fieldLines_inj hfields (List.cons.inj h).2
  · exact absurd (List.cons.inj h).2 (hmixed hne)
  · exact absurd (List.cons.inj h).2.symm (hmixed hne')
  · exact fieldLines_inj hfields (List.cons.inj h).2

end SS16.Yaml
