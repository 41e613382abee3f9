import SS16.Proofs.Object.Rows
import Mathlib.Data.List.Basic

/-!
# SS16.Proofs.Object.Blocks — the blocks of the text format are read back

A text is cut into lines at line feeds and into blocks at lines with a `#`, and no row has either.  So
the text of an object tells its symbols, its relocations and its bytes, and nothing else.  Main
statements: `Text.unlines_inj`, `Object.blockLines_inj` and `Object.toText_eq_iff`.
-/

namespace SS16

/-! ### Lines -/

namespace Text

theorem toList_unlines (ls : List String) :
    (unlines ls).toList = ls.flatMap fun l => l.toList ++ ['\n'] := by
  unfold unlines
  rw [String.toList_join, List.flatMap_map]
  simp only [String.toList_append]
  rfl

/-- Line feeds cut a text into its lines, and leave nothing behind the last one. -/
theorem splitOnP_unlines {ls : List String} (h : ∀ l ∈ ls, '\n' ∉ l.toList) :
    (unlines ls).toList.splitOnP (· == '\n') = ls.map String.toList ++ [[]] := by
  rw [toList_unlines]
  induction ls with
  | nil => rfl
  | cons l ls ih =>
    have hl : ∀ c ∈ l.toList, (c == '\n') = false := by
      intro c hc
      rw [beq_eq_false_iff_ne]
      rintro rfl
      exact h l List.mem_cons_self hc
    rw [List.flatMap_cons, List.append_assoc, List.singleton_append,
      List.splitOnP_append_cons_of_forall_mem hl '\n' rfl,
      ih fun m hm => h m (List.mem_cons_of_mem l hm)]
    rfl

theorem unlines_inj {ls ms : List String} (hl : ∀ l ∈ ls, '\n' ∉ l.toList)
    (hm : ∀ m ∈ ms, '\n' ∉ m.toList) : unlines ls = unlines ms ↔ ls = ms := by
  refine ⟨fun h => ?_, congrArg unlines⟩
  have hsplit := splitOnP_unlines hl
  rw [h, splitOnP_unlines hm, List.append_cancel_right_eq] at hsplit
  exact (List.map_injective_iff.2 (fun _ _ => String.toList_injective) hsplit).symm

end Text

/-! ### Sections that hold something -/

namespace BySection

variable {α : Type}

def held (m : BySection α) : List (Section × List α) :=
  m.toList.filter fun g => !g.2.isEmpty

end BySection

theorem flatMap_ite_nil {α β : Type} (p : α → Bool) (f : α → List β) (xs : List α) :
    (xs.flatMap fun x => if p x then [] else f x) = (xs.filter fun x => !p x).flatMap f := by
  induction xs with
  | nil => rfl
  | cons x xs ih =>
    rw [List.flatMap_cons, ih, List.filter_cons]
    cases p x <;> rfl

theorem eq_of_map_eq {α β : Type} {f : α → β} {xs ys : List α}
    (hf : ∀ x ∈ xs, ∀ y ∈ ys, f x = f y → x = y) (h : xs.map f = ys.map f) : xs = ys := by
  induction xs generalizing ys with
  | nil => exact (List.map_eq_nil_iff.1 h.symm).symm
  | cons x xs ih =>
    obtain ⟨y, ys, rfl, hy, hrest⟩ := List.map_eq_cons_iff.1 h.symm
    rw [hf x List.mem_cons_self y List.mem_cons_self hy.symm,
      ih (fun u hu v hv => hf u (List.mem_cons_of_mem x hu) v (List.mem_cons_of_mem y hv))
        hrest.symm]

/-- Two lists that go on with marked elements, or end, after unmarked ones. -/
theorem append_inj_of_marked {α : Type} {p : α → Bool} {xs ys xs' ys' : List α}
    (hx : ∀ x ∈ xs, p x = false) (hx' : ∀ x ∈ xs', p x = false) (hy : ∀ y ∈ ys.head?, p y)
    (hy' : ∀ y ∈ ys'.head?, p y) (h : xs ++ ys = xs' ++ ys') : xs = xs' ∧ ys = ys' := by
  have hfirst : ∀ {zs ws : List α}, (∀ z ∈ zs, p z = false) → (∀ w ∈ ws.head?, p w) →
      (zs ++ ws).takeWhile (fun x => !p x) = zs := by
    intro zs ws hz hw
    rw [List.takeWhile_append_of_pos fun z hmem => by rw [hz z hmem]; rfl]
    cases ws with
    | nil => exact List.append_nil zs
    | cons w ws =>
      rw [List.takeWhile_cons_of_neg (by simp [hw w rfl]), List.append_nil]
  have hxs : xs = xs' := by
    rw [← hfirst hx hy, h, hfirst hx' hy']
  exact ⟨hxs, List.append_cancel_left (hxs ▸ h)⟩

/-- A marked element, and only unmarked ones after it. -/
def Headed {α : Type} (p : α → Bool) (l : List α) : Prop :=
  ∃ x xs, l = x :: xs ∧ p x ∧ ∀ y ∈ xs, p y = false

/-- Lists that are marked where they start, and only there, are told by their concatenation. -/
theorem flatten_inj_of_headed {α : Type} {p : α → Bool} {ls ms : List (List α)}
    (hl : ∀ l ∈ ls, Headed p l) (hm : ∀ m ∈ ms, Headed p m) (h : ls.flatten = ms.flatten) :
    ls = ms := by
  have hhead : ∀ {ks : List (List α)}, (∀ k ∈ ks, Headed p k) → ∀ x ∈ ks.flatten.head?, p x := by
    intro ks hk x hx
    cases ks with
    | nil => cases hx
    | cons k ks =>
      obtain ⟨y, ys, rfl, hy, -⟩ := hk k List.mem_cons_self
      obtain rfl : y = x := Option.some.inj hx
      exact hy
  induction ls generalizing ms with
  | nil =>
    cases ms with
    | nil => rfl
    | cons m ms =>
      obtain ⟨y, ys, rfl, -, -⟩ := hm m List.mem_cons_self
      cases h
  | cons l ls ih =>
    obtain ⟨x, xs, rfl, -, hxs⟩ := hl l List.mem_cons_self
    cases ms with
    | nil => cases h
    | cons m ms =>
      obtain ⟨y, ys, rfl, -, hys⟩ := hm m List.mem_cons_self
      obtain ⟨hfirst, hrest⟩ := List.cons.inj h
      have hl := fun k hk => hl k (List.mem_cons_of_mem _ hk)
      have hm := fun k hk => hm k (List.mem_cons_of_mem _ hk)
      obtain ⟨htail, hlists⟩ := append_inj_of_marked hxs hys (hhead hl) (hhead hm) hrest
      rw [hfirst, htail, ih hl hm hlists]

/-! ### Blocks -/

namespace Object

/-- What a block is about. -/
inductive Heading
  | symbols
  | relocations (kind : Section)
  | code (kind : Section)

namespace Heading

def text : Heading → String
  | symbols => "#.symbols"
  | relocations k => "#.rel" ++ k.name
  | code k => "#" ++ k.name

def isCode : Heading → Bool
  | code _ => true
  | symbols | relocations _ => false

theorem text_injective : Function.Injective text := by
  rintro (_ | k | k) (_ | j | j) h
  · rfl
  · cases j <;> exact absurd h (by decide)
  · cases j <;> exact absurd h (by decide)
  · cases k <;> exact absurd h (by decide)
  · exact congrArg relocations (Section.name_inj.1 ((String.append_right_inj _).1 h))
  · cases k <;> cases j <;> exact absurd h (by decide)
  · cases k <;> exact absurd h (by decide)
  · cases k <;> cases j <;> exact absurd h (by decide)
  · exact congrArg code (Section.name_inj.1 ((String.append_right_inj _).1 h))

theorem mem_text (h : Heading) : '#' ∈ h.text.toList := by
  rcases h with _ | k | k
  · decide
  · cases k <;> decide
  · cases k <;> decide

theorem not_mem_text (h : Heading) : '\n' ∉ h.text.toList := by
  rcases h with _ | k | k
  · decide
  · cases k <;> decide
  · cases k <;> decide

end Heading

def blockLines (bs : List (Heading × List String)) : List String :=
  bs.flatMap fun b => b.1.text :: b.2

/-- Blocks are told by their lines if no row has a `#`. -/
theorem blockLines_inj {bs cs : List (Heading × List String)}
    (hb : ∀ b ∈ bs, ∀ row ∈ b.2, '#' ∉ row.toList) (hc : ∀ c ∈ cs, ∀ row ∈ c.2, '#' ∉ row.toList)
    (h : blockLines bs = blockLines cs) : bs = cs := by
  have hheaded : ∀ {ds : List (Heading × List String)}, (∀ d ∈ ds, ∀ row ∈ d.2, '#' ∉ row.toList) →
      ∀ l ∈ ds.map fun d => d.1.text :: d.2, Headed (fun l => decide ('#' ∈ l.toList)) l := by
    intro ds hd l hl
    obtain ⟨d, hmem, rfl⟩ := List.mem_map.1 hl
    exact ⟨_, _, rfl, decide_eq_true d.1.mem_text,
      fun row hrow => decide_eq_false (hd d hmem row hrow)⟩
  refine List.map_injective_iff.2 (fun d d' hd => ?_)
    (flatten_inj_of_headed (hheaded hb) (hheaded hc) h)
  obtain ⟨hheading, hrows⟩ := List.cons.inj hd
  exact Prod.ext (Heading.text_injective hheading) hrows

def relocationRows (rs : List Relocation) : List String :=
  relocationRow "offset" "type" "entry" :: rs.map relocationLine

def codeRows (bs : List UInt8) : List String :=
  (byteRows ((bs.length + rowWidth - 1) / rowWidth) bs).map Hex.dump

def blocks (o : Object) : List (Heading × List String) :=
  (.symbols, o.symbols.dumpRows) ::
    ((o.relocations.held.map fun g => (.relocations g.1, relocationRows g.2)) ++
      o.code.held.map fun g => (.code g.1, codeRows g.2))

theorem textLines_eq (o : Object) : o.textLines = blockLines o.blocks := by
  have hrelocations : (o.relocations.toList.flatMap fun g => relocationBlock g.1 g.2) =
      o.relocations.held.flatMap fun g => (Heading.relocations g.1).text :: relocationRows g.2 :=
    flatMap_ite_nil _ _ _
  have hcode : (o.code.toList.flatMap fun g => codeBlock g.1 g.2) =
      o.code.held.flatMap fun g => (Heading.code g.1).text :: codeRows g.2 :=
    flatMap_ite_nil _ _ _
  unfold textLines blockLines blocks
  rw [hrelocations, hcode, List.flatMap_cons, List.flatMap_append, List.flatMap_map,
    List.flatMap_map, List.append_assoc]
  rfl

/-! ### What a text tells -/

open Text in
theorem exists_isRow_of_mem_blocks {o : Object} (h : ∀ s ∈ o.symbols.toList, IsCell s.name)
    {b : Heading × List String} (hb : b ∈ o.blocks) {row : String} (hrow : row ∈ b.2) :
    ∃ cells, IsRow row cells := by
  rcases List.mem_cons.1 hb with rfl | hb
  · rcases List.mem_cons.1 hrow with rfl | hrow
    · exact ⟨_, SymbolTable.isRow_dumpRow (by decide) (by decide) (by decide) (by decide)
        (by decide)⟩
    · obtain ⟨s, hs, rfl⟩ := List.mem_map.1 hrow
      exact ⟨_, SymbolTable.isRow_dumpEntry (h s hs)⟩
  · rcases List.mem_append.1 hb with hb | hb
    · obtain ⟨g, -, rfl⟩ := List.mem_map.1 hb
      rcases List.mem_cons.1 hrow with rfl | hrow
      · exact ⟨_, isRow_relocationRow (by decide) (by decide) (by decide)⟩
      · obtain ⟨r, -, rfl⟩ := List.mem_map.1 hrow
        exact ⟨_, isRow_relocationLine r⟩
    · obtain ⟨g, -, rfl⟩ := List.mem_map.1 hb
      obtain ⟨bs, -, rfl⟩ := List.mem_map.1 hrow
      exact ⟨_, isRow_dump bs⟩

theorem relocationRows_injective : Function.Injective relocationRows := fun _ _ h =>
  List.map_injective_iff.2 relocationLine_injective (List.cons.inj h).2

theorem codeRows_injective : Function.Injective codeRows := by
  intro bs cs h
  have hbytes := flatMap_words_byteRows bs
  change (codeRows bs).flatMap Text.words = _ at hbytes
  rw [h] at hbytes
  exact List.map_injective_iff.2 Hex.byte_injective
    (hbytes.symm.trans (flatMap_words_byteRows cs))

end Object

open Text in
theorem SymbolTable.dumpRows_inj {t u : SymbolTable} (ht : ∀ s ∈ t.toList, IsCell s.name)
    (hu : ∀ s ∈ u.toList, IsCell s.name) (h : t.dumpRows = u.dumpRows) : t = u := by
  refine SymbolTable.ext (eq_of_map_eq (fun s hs r hr he => ?_) (List.cons.inj h).2)
  exact dumpEntry_inj (ht s hs) (hu r hr) he

namespace Object

open Text in
/-- The text of an object tells its symbols, its relocations and its bytes. -/
theorem toText_eq_iff {o o' : Object} (h : ∀ s ∈ o.symbols.toList, IsCell s.name)
    (h' : ∀ s ∈ o'.symbols.toList, IsCell s.name) :
    o.toText = o'.toText ↔ o.symbols = o'.symbols ∧ o.relocations.held = o'.relocations.held ∧
      o.code.held = o'.code.held := by
  have hplain : ∀ {o : Object}, (∀ s ∈ o.symbols.toList, IsCell s.name) →
      ∀ l ∈ blockLines o.blocks, '\n' ∉ l.toList := by
    intro o h l hl
    obtain ⟨b, hb, hl⟩ := List.mem_flatMap.1 hl
    rcases List.mem_cons.1 hl with rfl | hl
    · exact b.1.not_mem_text
    · obtain ⟨cells, hrow⟩ := exists_isRow_of_mem_blocks h hb hl
      exact fun hc => (hrow.plain _ hc).1 rfl
  have hrows : ∀ {o : Object}, (∀ s ∈ o.symbols.toList, IsCell s.name) →
      ∀ b ∈ o.blocks, ∀ row ∈ b.2, '#' ∉ row.toList := by
    intro o h b hb row hrow hc
    obtain ⟨cells, hrow⟩ := exists_isRow_of_mem_blocks h hb hrow
    exact (hrow.plain _ hc).2 rfl
  unfold toText
  rw [textLines_eq, textLines_eq, unlines_inj (hplain h) (hplain h')]
  constructor
  · intro hlines
    obtain ⟨hsymbols, hrest⟩ := List.cons.inj (blockLines_inj (hrows h) (hrows h') hlines)
    -- blocks of bytes come behind those of relocations
    have hfront : ∀ m : BySection Relocation, ∀ b ∈ m.held.map fun g =>
        (Heading.relocations g.1, relocationRows g.2), b.1.isCode = false := by
      intro m b hb
      obtain ⟨g, -, rfl⟩ := List.mem_map.1 hb
      rfl
    have hback : ∀ m : BySection UInt8, ∀ b ∈ (m.held.map fun g =>
        (Heading.code g.1, codeRows g.2)).head?, b.1.isCode := by
      intro m b hb
      obtain ⟨g, -, rfl⟩ := List.mem_map.1 (List.mem_of_mem_head? hb)
      rfl
    obtain ⟨hrelocations, hcode⟩ := append_inj_of_marked
      (p := fun b : Heading × List String => b.1.isCode) (hfront _) (hfront _) (hback _) (hback _)
      hrest
    refine ⟨SymbolTable.dumpRows_inj h h' (Prod.mk.inj hsymbols).2, ?_, ?_⟩
    · refine List.map_injective_iff.2 (fun g g' hg => ?_) hrelocations
      obtain ⟨hk, hrs⟩ := Prod.mk.inj hg
      exact Prod.ext (Heading.relocations.inj hk) (relocationRows_injective hrs)
    · refine List.map_injective_iff.2 (fun g g' hg => ?_) hcode
      obtain ⟨hk, hbs⟩ := Prod.mk.inj hg
      exact Prod.ext (Heading.code.inj hk) (codeRows_injective hbs)
  · rintro ⟨hsymbols, hrelocations, hcode⟩
    unfold blocks
    rw [hsymbols, hrelocations, hcode]

end Object

end SS16
