import SS16.Proofs.Addresses
import SS16.Proofs.Emission.Blocks
import SS16.Proofs.Object.Blocks

/-!
# SS16.Proofs.ObjectText — the text of an object keeps all but the length of `.bss`

The text format leaves out the list of sections and every section that holds nothing.  The sections
are found again from their entries in the symbol table and from their bytes, and only `.bss` has a
length that no byte tells of.  Main statements: `Layout.Takes.sections` and
`eq_of_toText_of_assemble`.
-/

namespace SS16

/-! ### Groups that hold something -/

namespace BySection

variable {α : Type}

theorem mem_held_iff {m : BySection α} {k : Section} {xs : List α} :
    (k, xs) ∈ m.held ↔ xs ≠ [] ∧ m.get k = xs := by
  unfold held
  rw [List.mem_filter, toList_eq, List.mem_map]
  constructor
  · rintro ⟨⟨l, hl, he⟩, hne⟩
    obtain ⟨rfl, rfl⟩ := Prod.mk.inj he
    exact ⟨by simpa using hne, rfl⟩
  · rintro ⟨hne, rfl⟩
    refine ⟨⟨k, ?_, rfl⟩, by simpa using hne⟩
    exact not_not.1 fun hk => hne (get_of_not_mem_keys hk)

theorem held_eq_toList_iff {m : BySection α} :
    m.held = m.toList ↔ ∀ k ∈ m.keys, m.get k ≠ [] := by
  unfold held
  rw [List.filter_eq_self, toList_eq, List.forall_mem_map]
  simp

theorem held_append {m : BySection α} (h : m.held = m.toList) (k : Section) {xs : List α}
    (hne : xs ≠ []) : (m.append k xs).held = (m.append k xs).toList := by
  rw [held_eq_toList_iff] at h ⊢
  intro l hl
  rw [get_append]
  split_ifs with hk
  · exact List.append_ne_nil_of_right_ne_nil _ hne
  · refine h l ?_
    rw [keys_append] at hl
    split_ifs at hl with hm
    · exact hl
    · exact (List.mem_append.1 hl).resolve_right fun he => hk (List.mem_singleton.1 he).symm

/-- If the sections that came up are known, sequences are told by those that hold something. -/
theorem eq_of_held {m n : BySection α} (hkeys : m.keys = n.keys) (h : m.held = n.held) :
    m = n := by
  refine eq_of_get hkeys fun k => ?_
  by_cases hm : m.get k = []
  · by_cases hn : n.get k = []
    · exact hm.trans hn.symm
    · exact (mem_held_iff.1 (h ▸ mem_held_iff.2 ⟨hn, rfl⟩)).2
  · exact (mem_held_iff.1 (h ▸ mem_held_iff.2 ⟨hm, rfl⟩)).2.symm

end BySection

namespace Output

variable {symbols : SymbolTable} {lines : List Line} {line : Line} {out out' : Output}
  {here there : Option Place}

theorem held_relocate (h : out.relocations.held = out.relocations.toList) (k : Section)
    (rs : List Relocation) :
    (out.relocate k rs).relocations.held = (out.relocate k rs).relocations.toList := by
  unfold relocate
  split_ifs with hrs
  · exact h
  · exact BySection.held_append h k (by simpa using hrs)

/-- A section comes up with its first relocation. -/
theorem Emits.held_relocations (h : out.Emits symbols here lines out' there)
    (hout : out.relocations.held = out.relocations.toList) :
    out'.relocations.held = out'.relocations.toList := by
  induction lines generalizing out here with
  | nil =>
    obtain ⟨rfl, -⟩ := emits_nil.1 h
    exact hout
  | cons line lines ih =>
    obtain ⟨mid, m, hline, hrest⟩ := emits_cons.1 h
    refine ih hrest ?_
    cases hline with
    | pass => exact hout
    | enter => exact hout
    | put p q s rs bs => exact held_relocate hout p.kind rs

end Output

/-! ### Sections by their entries -/

def SymbolTable.sections (t : SymbolTable) : List Section :=
  (t.toList.map Symbol.name).filterMap Section.parse?

namespace Layout

theorem parse?_of_isValid {n : String} (h : Identifier.isValid n) : Section.parse? n = none := by
  rw [Section.parse?, List.find?_eq_none]
  intro k _ hk
  rw [← eq_of_beq hk, Section.isValid_name] at h
  cases h

theorem sections_take {l : Layout} {s : Step} (hs : l.refusal? s = none)
    (hn : ∀ n, s.name? = some n → Identifier.isValid n) :
    (l.take s).symbols.sections = l.symbols.sections ++ s.opens?.toList := by
  have hnamed : ∀ n, s.name? = some n → s.opens? = none := by
    intro n hsn
    cases s with
    | enter k => cases hsn
    | _ => rfl
  have hchange := take_change hs
  generalize (l.take s).symbols = t at hchange ⊢
  generalize (l.take s).next = count at hchange
  cases hchange with
  | keep _ hne =>
    have hopens : s.opens? = none := by
      cases s with
      | enter k => exact absurd rfl (hne k)
      | _ => rfl
    rw [hopens, Option.toList_none, List.append_nil]
  | complete r q hsn hr hl =>
    have hnames : (l.symbols.insert q).toList.map Symbol.name = l.symbols.toList.map Symbol.name := by
      rw [SymbolTable.toList_insert_of_some (hl.name ▸ hr), List.map_map]
      refine List.map_congr_left fun x _ => ?_
      show (if x.name = q.name then q else x).name = x.name
      split_ifs with hx
      · exact hx.symm
      · rfl
    rw [hnamed _ hsn, Option.toList_none, List.append_nil, SymbolTable.sections, hnames]
    rfl
  | enter k hk hnone =>
    subst hk
    rw [SymbolTable.sections, SymbolTable.toList_insert_of_none hnone, List.map_append,
      List.filterMap_append]
    congr 1
    exact List.filterMap_cons_some (k.parse?_name)
  | add r hsn hr =>
    rw [hnamed _ hsn, SymbolTable.sections, SymbolTable.toList_insert_of_none hr, List.map_append,
      List.filterMap_append]
    congr 1
    exact List.filterMap_cons_none (parse?_of_isValid (hn _ hsn))

theorem Takes.sections {l l' : Layout} {xs : List (Nat × Step)} (h : l.Takes xs l')
    (hn : ∀ x ∈ xs, ∀ n, x.2.name? = some n → Identifier.isValid n) :
    l'.symbols.sections = l.symbols.sections ++ (xs.map Prod.snd).filterMap Step.opens? := by
  induction xs generalizing l with
  | nil =>
    obtain rfl := takes_nil.1 h
    simp
  | cons x xs ih =>
    obtain ⟨hx, h⟩ := takes_cons.1 h
    rw [ih h fun y hy => hn y (List.mem_cons_of_mem x hy), sections_take hx (hn x List.mem_cons_self),
      List.append_assoc, List.map_cons, List.filterMap_cons]
    cases x.2.opens? <;> rfl

theorem Takes.address_eq_zero {l : Layout} {t : SymbolTable} {xs : List (Nat × Step)}
    (h : (start t).Takes xs l) : ∀ e ∈ l.extents, e.address = 0 := by
  have hextents : ∀ m : Layout, (∀ e ∈ m.closed.toList, e.address = 0) →
      ∀ e ∈ m.extents, e.address = 0 := by
    intro m hm e he
    rw [extents_eq, List.mem_append] at he
    rcases he with he | he
    · exact hm e he
    · cases hp : m.place with
      | none => simp [hp] at he
      | some p =>
        rw [hp] at he
        obtain rfl := List.mem_singleton.1 he
        rfl
  refine hextents l (h.preserves (P := fun m => ∀ e ∈ m.closed.toList, e.address = 0)
    (fun x _ m _ hm => ?_) (fun e he => by cases he))
  cases hs : x.2.opens? with
  | none =>
    rw [closed_take hs]
    exact hm
  | some k =>
    cases hx : x.2 with
    | enter j =>
      rw [closed_take_enter]
      exact hextents m hm
    | _ =>
      rw [hx] at hs
      cases hs

end Layout

/-! ### Sources -/

/-- What the text of an assembled object leaves out is known from the rest. -/
theorem known_of_assemble {source : String} {a : Assembly} (h : assemble source = .ok a) :
    (∀ s ∈ a.object.symbols.toList, Text.IsCell s.name) ∧
      a.object.relocations.held = a.object.relocations.toList ∧
      a.object.code.keys = Section.all.filter Section.hasContents ∧
      a.object.sections.map Extent.kind = a.object.symbols.sections ∧
      ∀ e ∈ a.object.sections, e.address = 0 ∧
        (e.kind.hasContents → e.length.toNat = (a.object.code.get e.kind).length) := by
  obtain ⟨m, l, mid, out, ht, ht', hw, he, he', -, hout, rfl⟩ :=
    inStep_of_assemble h (List.append_nil _).symm
  obtain rfl := Layout.takes_nil.1 ht'
  obtain ⟨rfl, -⟩ := Output.emits_nil.1 he'
  have hvalid : ∀ x ∈ (Program.ofSource source).lines.flatMap Line.located, ∀ n,
      x.2.name? = some n → Identifier.isValid n := fun x hx n hn =>
    Program.isValid_of_mem_steps (List.mem_append_left _ hx) hn
  refine ⟨fun s hs => ?_, he.held_relocations rfl, keys_fresh he, ?_, fun e hmem => ⟨?_, ?_⟩⟩
  · rcases hw.named s hs with hn | ⟨k, rfl⟩
    · exact Text.isCell_of_isValid hn
    · exact Text.isCell_sectionName k
  · exact ht.kinds.trans (ht.sections hvalid).symm
  · exact ht.address_eq_zero e hmem
  · exact fun hc => (hout.length e hmem hc).symm

/-- The text of an object keeps all but the length of `.bss`.  If two sources are assembled to objects
of the same text, these have the same symbols, relocations and bytes, and the same sections but for
the length of `.bss`. -/
theorem eq_of_toText_of_assemble {source source' : String} {a b : Assembly}
    (h : assemble source = .ok a) (h' : assemble source' = .ok b)
    (htext : a.object.toText = b.object.toText) :
    a.object.symbols = b.object.symbols ∧ a.object.relocations = b.object.relocations ∧
      a.object.code = b.object.code ∧
      List.Forall₂ (fun e e' : Extent => e.kind = e'.kind ∧ e.address = e'.address ∧
          (e.kind ≠ .bss → e.length = e'.length)) a.object.sections b.object.sections := by
  obtain ⟨hnames, hheld, hkeys, hkinds, hext⟩ := known_of_assemble h
  obtain ⟨hnames', hheld', hkeys', hkinds', hext'⟩ := known_of_assemble h'
  obtain ⟨hsymbols, hrelocations, hcode⟩ := (Object.toText_eq_iff hnames hnames').1 htext
  rw [hheld, hheld', BySection.toList_inj] at hrelocations
  have hcode : a.object.code = b.object.code :=
    BySection.eq_of_held (hkeys.trans hkeys'.symm) hcode
  refine ⟨hsymbols, hrelocations, hcode, ?_⟩
  have hsame : List.Forall₂ (fun e e' : Extent => e.kind = e'.kind) a.object.sections
      b.object.sections := by
    rw [← List.forall₂_map_left_iff (R := fun k e' => k = Extent.kind e'),
      ← List.forall₂_map_right_iff (R := Eq), hkinds, hkinds', hsymbols]
    exact List.forall₂_refl _
  have hleft := (List.forall₂_and_left _ _).2 ⟨hext, hsame⟩
  have hboth := ((List.forall₂_and_left _ _).2 ⟨hext', hleft.flip⟩).flip
  refine hboth.imp ?_
  rintro e e' ⟨⟨haddress', hlength'⟩, ⟨haddress, hlength⟩, hk⟩
  refine ⟨hk, haddress.trans haddress'.symm, fun hne => ?_⟩
  have hc : e.kind.hasContents := by
    cases hek : e.kind with
    | bss => exact absurd hek hne
    | _ => rfl
  exact UInt16.toNat_inj.1 ((hlength hc).trans (by rw [hcode, hk, hlength' (hk ▸ hc)]))

theorem eq_of_toText_of_assemble_bss :
    ∃ a b, assemble ".text\ncall f\n.global f\n.bss\nx: .skip 2" = .ok a ∧
      assemble ".text\ncall f\n.global f\n.bss\nx: .skip 3" = .ok b ∧
      a.object.toText = b.object.toText ∧ a.object.symbols = b.object.symbols ∧
      a.object.relocations = b.object.relocations ∧ a.object.code = b.object.code ∧
      a.object.sections ≠ b.object.sections := by
  obtain ⟨a, h⟩ := Results.exists_of_isSome
    (x := assemble ".text\ncall f\n.global f\n.bss\nx: .skip 2") (by decide +kernel)
  obtain ⟨b, h'⟩ := Results.exists_of_isSome
    (x := assemble ".text\ncall f\n.global f\n.bss\nx: .skip 3") (by decide +kernel)
  have htexts : (assemble ".text\ncall f\n.global f\n.bss\nx: .skip 2").toOption.map
        (fun a => a.object.toText) =
      (assemble ".text\ncall f\n.global f\n.bss\nx: .skip 3").toOption.map
        (fun a => a.object.toText) := by decide +kernel
  have hsections : (assemble ".text\ncall f\n.global f\n.bss\nx: .skip 2").toOption.map
        (fun a => a.object.sections) ≠
      (assemble ".text\ncall f\n.global f\n.bss\nx: .skip 3").toOption.map
        (fun a => a.object.sections) := by decide +kernel
  rw [h, h'] at htexts hsections
  have htext : a.object.toText = b.object.toText := Option.some.inj htexts
  obtain ⟨hsymbols, hrelocations, hcode, -⟩ := eq_of_toText_of_assemble h h' htext
  exact ⟨a, b, h, h', htext, hsymbols, hrelocations, hcode, fun he => hsections (congrArg some he)⟩

end SS16
