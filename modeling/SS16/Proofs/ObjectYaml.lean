import SS16.Proofs.ObjectText
import SS16.Proofs.Object.YamlLines

/-!
# SS16.Proofs.ObjectYaml — the YAML of an object keeps the whole object

Nothing in the YAML form of an object brings its own end of a line, so the text tells the lines, the
lines the four collections, and these their items and entries down to each value.  Main statements:
`Object.toYaml_eq_iff` and `eq_of_toYaml_of_assemble`.
-/

namespace SS16

open YamlScalar Yaml

theorem Yaml.closed_of_unbroken {line : String} (h : Unbroken line) :
    closed line = line ++ "\n" := by
  unfold closed
  rw [if_neg]
  intro hend
  obtain ⟨c, hc, hbreak⟩ := (Option.any_eq_true ..).1 hend
  rw [h c (List.mem_of_getLast? hc)] at hbreak
  cases hbreak

namespace Object

/-! ### Fields -/

theorem fieldsUnbroken_extent (e : Extent) : FieldsUnbroken (extentFields e) :=
  .cons (by decide) (isBare_sectionName e.kind).unbroken <|
    .cons (by decide) (unbroken_toString _) <| .cons (by decide) (unbroken_toString _) .nil

theorem extentFields_injective : Function.Injective extentFields := by
  rintro ⟨kind, address, length⟩ ⟨kind', address', length'⟩ h
  simp only [extentFields, List.cons.injEq, Prod.mk.injEq, true_and, and_true] at h
  obtain ⟨hkind, haddress, hlength⟩ := h
  obtain rfl : kind = kind' := Section.name_inj.1 hkind
  obtain rfl : address = address' := toString_toNat_inj haddress
  obtain rfl : length = length' := toString_toNat_inj hlength
  rfl

theorem fieldsUnbroken_relocation (r : Relocation) : FieldsUnbroken (relocationFields r) := by
  have hkind : Unbroken r.kind.name := by cases r.kind <;> decide
  exact .cons (by decide) (unbroken_toString _) <| .cons (by decide) hkind <|
    .cons (by decide) (unbroken_toString _) .nil

theorem relocationFields_injective : Function.Injective relocationFields := by
  rintro ⟨offset, kind, entry⟩ ⟨offset', kind', entry'⟩ h
  simp only [relocationFields, List.cons.injEq, Prod.mk.injEq, true_and, and_true] at h
  obtain ⟨hoffset, hkind, hentry⟩ := h
  obtain rfl : offset = offset' := toString_toNat_inj hoffset
  obtain rfl : kind = kind' := RelocationKind.name_inj.1 hkind
  obtain rfl : entry = entry' := toString_toNat_inj hentry
  rfl

/-- No section has the name that stands for none. -/
theorem homeField_injective :
    Function.Injective fun home : Option Section => (home.map Section.name).getD "null" := by
  rintro (_ | k) (_ | l) h
  · rfl
  · cases l <;> exact absurd h (by decide)
  · cases k <;> exact absurd h (by decide)
  · exact congrArg some (Section.name_inj.1 h)

theorem fieldsUnbroken_symbol {s : Symbol} (h : IsBare s.name) :
    FieldsUnbroken (symbolFields s) := by
  have hhome : Unbroken ((s.home.map Section.name).getD "null") := by
    cases s.home with
    | none => decide
    | some k => exact (isBare_sectionName k).unbroken
  have hbinding : Unbroken s.binding.name := by cases s.binding <;> decide
  exact .cons (by decide) (unbroken_render h 6) <| .cons (by decide) hhome <|
    .cons (by decide) (unbroken_toString _) <| .cons (by decide) hbinding <|
    .cons (by decide) (unbroken_toString _) .nil

theorem symbolFields_inj {s r : Symbol} (hs : IsBare s.name) (hr : IsBare r.name)
    (h : symbolFields s = symbolFields r) : s = r := by
  obtain ⟨name, home, offset, binding, number⟩ := s
  obtain ⟨name', home', offset', binding', number'⟩ := r
  simp only [symbolFields, List.cons.injEq, Prod.mk.injEq, true_and, and_true] at h
  obtain ⟨hname, hhome, hoffset, hbinding, hnumber⟩ := h
  obtain rfl : name = name' := render_inj hs hr hname
  obtain rfl : home = home' := homeField_injective hhome
  obtain rfl : offset = offset' := toString_toNat_inj hoffset
  obtain rfl : binding = binding' := Binding.name_inj.1 hbinding
  obtain rfl : number = number' := toString_toNat_inj hnumber
  rfl

/-! ### Collections -/

def symbolEntries (o : Object) : List (List String) :=
  o.symbols.toList.map fun s => entry s.name (symbolFields s)

def relocationEntries (o : Object) : List (List String) :=
  o.relocations.toList.map fun g => sequence "  " g.1.name (g.2.map relocationFields)

def codeEntries (o : Object) : List (List String) :=
  o.code.toList.map fun g => numbers "  " g.1.name (g.2.map UInt8.toNat)

def yamlEntries (o : Object) : List (List String) :=
  [sequence "" "sections" (o.sections.map extentFields),
    collection "" "symbols" "\x7b\x7d" o.symbolEntries.flatten,
    collection "" "relocs" "\x7b\x7d" o.relocationEntries.flatten,
    collection "" "code" "\x7b\x7d" o.codeEntries.flatten]

theorem yamlLines_eq (o : Object) : o.yamlLines = o.yamlEntries.flatten := by
  unfold yamlLines yamlEntries
  rw [List.flatten_cons, List.flatten_cons, List.flatten_cons, List.flatten_singleton,
    ← List.append_assoc, ← List.append_assoc]
  rfl

theorem isEntry_of_mem_symbolEntries {o : Object} (h : ∀ s ∈ o.symbols.toList, IsBare s.name) :
    ∀ ls ∈ o.symbolEntries, IsEntry 2 ls := by
  intro ls hls
  obtain ⟨s, hs, rfl⟩ := List.mem_map.1 hls
  exact isEntry_entry (h s hs) (fieldsUnbroken_symbol (h s hs))

theorem isEntry_of_mem_relocationEntries {o : Object} :
    ∀ ls ∈ o.relocationEntries, IsEntry 2 ls := by
  intro ls hls
  obtain ⟨g, -, rfl⟩ := List.mem_map.1 hls
  refine isEntry_sequence isIndent_two (isKey_sectionName g.1) fun fields hfields => ?_
  obtain ⟨r, -, rfl⟩ := List.mem_map.1 hfields
  exact fieldsUnbroken_relocation r

theorem isEntry_of_mem_codeEntries {o : Object} : ∀ ls ∈ o.codeEntries, IsEntry 2 ls := by
  intro ls hls
  obtain ⟨g, -, rfl⟩ := List.mem_map.1 hls
  exact isEntry_numbers isIndent_two (isKey_sectionName g.1) _

theorem isEntry_of_mem_yamlEntries {o : Object} (h : ∀ s ∈ o.symbols.toList, IsBare s.name) :
    ∀ ls ∈ o.yamlEntries, IsEntry 0 ls := by
  intro ls hls
  simp only [yamlEntries, List.mem_cons, List.not_mem_nil, or_false] at hls
  rcases hls with rfl | rfl | rfl | rfl
  · refine isEntry_sequence isIndent_zero (by decide) fun fields hfields => ?_
    obtain ⟨e, -, rfl⟩ := List.mem_map.1 hfields
    exact fieldsUnbroken_extent e
  · exact isEntry_mapping (by decide) (by decide) (isEntry_of_mem_symbolEntries h)
  · exact isEntry_mapping (by decide) (by decide) isEntry_of_mem_relocationEntries
  · exact isEntry_mapping (by decide) (by decide) isEntry_of_mem_codeEntries

/-! ### What the YAML of an object tells -/

theorem sections_eq_of_sequence {es es' : List Extent}
    (h : sequence "" "sections" (es.map extentFields) =
      sequence "" "sections" (es'.map extentFields)) : es = es' := by
  have hfields : ∀ {es : List Extent}, ∀ x ∈ es.map extentFields,
      x.map Prod.fst = ["kind", "address", "length"] := by
    intro es x hx
    obtain ⟨e, -, rfl⟩ := List.mem_map.1 hx
    rfl
  exact List.map_injective_iff.2 extentFields_injective
    (sequence_inj isIndent_zero (List.cons_ne_nil _ _) hfields hfields h).2

theorem symbols_eq_of_symbolEntries {o o' : Object} (h : ∀ s ∈ o.symbols.toList, IsBare s.name)
    (h' : ∀ s ∈ o'.symbols.toList, IsBare s.name) (he : o.symbolEntries = o'.symbolEntries) :
    o.symbols = o'.symbols := by
  refine SymbolTable.ext (eq_of_map_eq (fun s hs r hr hsr => ?_) he)
  exact symbolFields_inj (h s hs) (h' r hr) (entry_inj (List.cons_ne_nil _ _) rfl hsr)

theorem relocations_eq_of_relocationEntries {o o' : Object}
    (he : o.relocationEntries = o'.relocationEntries) : o.relocations = o'.relocations := by
  have hfields : ∀ {rs : List Relocation}, ∀ x ∈ rs.map relocationFields,
      x.map Prod.fst = ["offset", "kind", "symbol"] := by
    intro rs x hx
    obtain ⟨r, -, rfl⟩ := List.mem_map.1 hx
    rfl
  refine BySection.toList_inj.1 (eq_of_map_eq (fun g _ g' _ hg => ?_) he)
  obtain ⟨hkind, hitems⟩ := sequence_inj isIndent_two (List.cons_ne_nil _ _) hfields hfields hg
  exact Prod.ext (Section.name_inj.1 hkind)
    (List.map_injective_iff.2 relocationFields_injective hitems)

theorem code_eq_of_codeEntries {o o' : Object} (he : o.codeEntries = o'.codeEntries) :
    o.code = o'.code := by
  refine BySection.toList_inj.1 (eq_of_map_eq (fun g _ g' _ hg => ?_) he)
  obtain ⟨hkind, hbytes⟩ := numbers_inj hg
  exact Prod.ext (Section.name_inj.1 hkind)
    (List.map_injective_iff.2 (fun _ _ => UInt8.toNat_inj.1) hbytes)

theorem toYaml_eq_unlines {o : Object} (h : ∀ s ∈ o.symbols.toList, IsBare s.name) :
    o.toYaml = Text.unlines o.yamlEntries.flatten ∧
      ∀ line ∈ o.yamlEntries.flatten, '\n' ∉ line.toList := by
  have hunbroken : ∀ line ∈ o.yamlEntries.flatten, Unbroken line := by
    intro line hline
    obtain ⟨ls, hls, hmem⟩ := List.mem_flatten.1 hline
    exact ((isEntry_of_mem_yamlEntries h ls hls).isLine line hmem).unbroken
  refine ⟨?_, fun line hline hc => absurd (hunbroken line hline _ hc) (by decide)⟩
  unfold toYaml Text.unlines
  rw [yamlLines_eq]
  exact congrArg String.join
    (List.map_congr_left fun line hline => closed_of_unbroken (hunbroken line hline))

theorem toYaml_eq_iff {o o' : Object} (h : ∀ s ∈ o.symbols.toList, IsBare s.name)
    (h' : ∀ s ∈ o'.symbols.toList, IsBare s.name) : o.toYaml = o'.toYaml ↔ o = o' := by
  refine ⟨fun hyaml => ?_, congrArg toYaml⟩
  obtain ⟨htext, hlines⟩ := toYaml_eq_unlines h
  obtain ⟨htext', hlines'⟩ := toYaml_eq_unlines h'
  rw [htext, htext', Text.unlines_inj hlines hlines'] at hyaml
  have hcollections := IsEntry.flatten_inj (isEntry_of_mem_yamlEntries h)
    (isEntry_of_mem_yamlEntries h') hyaml
  simp only [yamlEntries, List.cons.injEq, and_true] at hcollections
  obtain ⟨hsections, hsymbols, hrelocations, hcode⟩ := hcollections
  have hsections := sections_eq_of_sequence hsections
  have hsymbols := symbols_eq_of_symbolEntries h h' (IsEntry.flatten_inj
    (isEntry_of_mem_symbolEntries h) (isEntry_of_mem_symbolEntries h') (collection_inj hsymbols).2)
  have hrelocations := relocations_eq_of_relocationEntries (IsEntry.flatten_inj
    isEntry_of_mem_relocationEntries isEntry_of_mem_relocationEntries
    (collection_inj hrelocations).2)
  have hcode := code_eq_of_codeEntries (IsEntry.flatten_inj isEntry_of_mem_codeEntries
    isEntry_of_mem_codeEntries (collection_inj hcode).2)
  obtain ⟨sections, symbols, relocations, code⟩ := o
  obtain ⟨sections', symbols', relocations', code'⟩ := o'
  dsimp only at hsections hsymbols hrelocations hcode
  rw [hsections, hsymbols, hrelocations, hcode]

end Object

/-! ### Sources -/

/-- Every entry of an assembled object has the name of a symbol or of a section. -/
theorem isBare_of_assemble {source : String} {a : Assembly} (h : assemble source = .ok a) :
    ∀ s ∈ a.object.symbols.toList, IsBare s.name := by
  obtain ⟨m, l, mid, out, -, ht', hw, -, -, -, -, rfl⟩ :=
    inStep_of_assemble h (List.append_nil _).symm
  obtain rfl := Layout.takes_nil.1 ht'
  intro s hs
  rcases hw.named s hs with hn | ⟨k, rfl⟩
  · exact isBare_of_isValid hn
  · exact isBare_sectionName k

/-- The YAML of an object keeps the whole object.  If two sources are assembled to objects of the
same YAML, these are the same object. -/
theorem eq_of_toYaml_of_assemble {source source' : String} {a b : Assembly}
    (h : assemble source = .ok a) (h' : assemble source' = .ok b)
    (hyaml : a.object.toYaml = b.object.toYaml) : a.object = b.object :=
  (Object.toYaml_eq_iff (isBare_of_assemble h) (isBare_of_assemble h')).1 hyaml

theorem eq_of_toYaml_of_assemble_null :
    ∃ a b, assemble ".text\ncall null ; linked later\n.global null" = .ok a ∧
      assemble ".text\n\n call null\n.global null" = .ok b ∧
      a.object.toYaml = b.object.toYaml ∧ a.object = b.object := by
  obtain ⟨a, h⟩ := Results.exists_of_isSome
    (x := assemble ".text\ncall null ; linked later\n.global null") (by decide +kernel)
  obtain ⟨b, h'⟩ := Results.exists_of_isSome
    (x := assemble ".text\n\n call null\n.global null") (by decide +kernel)
  have hyamls : (assemble ".text\ncall null ; linked later\n.global null").toOption.map
        (fun a => a.object.toYaml) =
      (assemble ".text\n\n call null\n.global null").toOption.map
        (fun a => a.object.toYaml) := by decide +kernel
  rw [h, h'] at hyamls
  have hyaml : a.object.toYaml = b.object.toYaml := Option.some.inj hyamls
  exact ⟨a, b, h, h', hyaml, eq_of_toYaml_of_assemble h h' hyaml⟩

end SS16
