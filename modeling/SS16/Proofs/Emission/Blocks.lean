import SS16.Proofs.Emission.Renumbering
import SS16.Proofs.Layout.Blocks
import Mathlib.Data.List.Nodup

/-!
# SS16.Proofs.Emission.Blocks — what blocks lay down

A block lays down what it lays down alone, at the end of its own section.  If no section is opened
twice, each section holds what one block lays down, whatever the order of blocks.  Main statements:
`Output.exists_emits_blocks_iff`, `Output.Emits.get_blocks` and `Line.flatMap_alone_perm`.
-/

namespace SS16

/-! ### Lines alone -/

namespace Line

/-- Whether lines have no fault when nothing is there yet. -/
def LaysAlone (symbols : SymbolTable) (lines : List Line) : Prop :=
  ∃ out there, Output.empty.Emits symbols none lines out there

/-- What lines lay down when nothing is there yet. -/
def alone (symbols : SymbolTable) (lines : List Line) : Output :=
  (Output.empty.emit symbols none lines).1

theorem alone_eq {symbols : SymbolTable} {lines : List Line} {out : Output} {there : Option Place}
    (h : Output.empty.Emits symbols none lines out there) : alone symbols lines = out :=
  congrArg Prod.fst h

/-- Under a table with the same values lines lay down the same bytes alone, and relocations that
differ in their entries only. -/
theorem LaysAlone.renumbered {R : UInt16 → UInt16 → Prop} {t u : SymbolTable}
    (h : t.Renumbers R u) {lines : List Line} (hl : LaysAlone t lines) :
    LaysAlone u lines ∧ ∀ k, (alone u lines).code.get k = (alone t lines).code.get k ∧
      List.Forall₂ (Relocation.Alike R) ((alone t lines).relocations.get k)
        ((alone u lines).relocations.get k) := by
  obtain ⟨out, there, he⟩ := hl
  obtain ⟨o, ho, hadd⟩ := he.renumbered h rfl .empty
  refine ⟨⟨o, there, ho⟩, fun k => ?_⟩
  rw [alone_eq he, alone_eq ho]
  obtain ⟨bs, h1, h2⟩ := hadd.code k
  obtain ⟨rs, qs, h3, h4, hrel⟩ := hadd.relocations k
  refine ⟨h2.trans h1.symm, ?_⟩
  rw [h3, h4]
  exact hrel

theorem lays_outside_iff {line : Line} (ho : line.opens? = none) (hocc : line.occupies = false)
    {symbols : SymbolTable} {out out' : Output} {here there : Option Place} :
    line.Lays symbols out here out' there ↔ out = out' ∧ here = there := by
  have hpass : ∀ s, line.statement = some s → s.occupies = false ∧ s.opens? = none := by
    intro s hs
    unfold opens? at ho
    unfold occupies at hocc
    rw [hs] at ho hocc
    exact ⟨hocc, ho⟩
  constructor
  · intro hl
    cases hl with
    | pass => exact ⟨rfl, rfl⟩
    | enter _ k hk => cases (hpass _ hk).2
    | put p q s rs bs hs hos =>
      rw [(hpass s hs).1] at hos
      cases hos
  · rintro ⟨rfl, rfl⟩
    exact .pass out here hpass

theorem lays_enter_iff {line : Line} {k : Section} (hs : line.statement = some (.enter k))
    {symbols : SymbolTable} {out out' : Output} {here there : Option Place} :
    line.Lays symbols out here out' there ↔ out = out' ∧ some (.start k) = there := by
  constructor
  · intro hl
    cases hl with
    | pass _ hp => cases (hp _ hs).2
    | enter _ j hj =>
      rw [hs] at hj
      cases hj
      exact ⟨rfl, rfl⟩
    | put p q s rs bs hst ho =>
      rw [hs] at hst
      cases hst
      cases ho
  · rintro ⟨rfl, rfl⟩
    exact .enter out here k hs

end Line

namespace Output

variable {symbols : SymbolTable} {lines : List Line} {out out' : Output}
  {here there : Option Place}

theorem Emits.alone (h : out.Emits symbols none lines out' there) :
    Line.LaysAlone symbols lines ∧ ∀ k,
      out'.code.get k = out.code.get k ++ (Line.alone symbols lines).code.get k ∧
      out'.relocations.get k =
        out.relocations.get k ++ (Line.alone symbols lines).relocations.get k := by
  obtain ⟨o, ho, hadd⟩ := h.renumbered symbols.renumbers_refl rfl .empty
  refine ⟨⟨o, there, ho⟩, fun k => ?_⟩
  rw [Line.alone_eq ho]
  obtain ⟨bs, h1, h2⟩ := hadd.code k
  obtain ⟨rs, qs, h3, h4, hrel⟩ := hadd.relocations k
  have h2 : o.code.get k = bs := h2
  have h4 : o.relocations.get k = qs := h4
  rw [h1, h2, h3, h4, Relocation.eq_of_forall₂_alike hrel]
  exact ⟨rfl, rfl⟩

theorem exists_emits_of_laysAlone (h : Line.LaysAlone symbols lines) (out : Output) :
    ∃ out' there, out.Emits symbols none lines out' there := by
  obtain ⟨o, there, ho⟩ := h
  obtain ⟨out', hout, -⟩ := ho.renumbered symbols.renumbers_refl rfl out
  exact ⟨out', there, hout⟩

theorem emits_outside_iff (h : ∀ line ∈ lines, line.opens? = none ∧ line.occupies = false) :
    out.Emits symbols here lines out' there ↔ out = out' ∧ here = there := by
  induction lines generalizing out here with
  | nil => exact emits_nil
  | cons line lines ih =>
    obtain ⟨ho, hocc⟩ := h line List.mem_cons_self
    have ih := fun {out here} => @ih out here fun x hx => h x (List.mem_cons_of_mem line hx)
    simp only [emits_cons, Line.lays_outside_iff ho hocc, ih]
    constructor
    · rintro ⟨mid, m, ⟨rfl, rfl⟩, h⟩
      exact h
    · exact fun h => ⟨out, here, ⟨rfl, rfl⟩, h⟩

theorem Emits.get_of_not_mem (h : out.Emits symbols here lines out' there) {k : Section}
    (hk : here.map Place.kind ≠ some k) (ho : k ∉ lines.filterMap Line.opens?) :
    out'.code.get k = out.code.get k ∧ out'.relocations.get k = out.relocations.get k := by
  induction lines generalizing out here with
  | nil =>
    obtain ⟨rfl, -⟩ := emits_nil.1 h
    exact ⟨rfl, rfl⟩
  | cons line lines ih =>
    obtain ⟨mid, m, hline, hrest⟩ := emits_cons.1 h
    have hlast : line.opens? ≠ some k ∧ k ∉ lines.filterMap Line.opens? := by
      rw [← List.singleton_append, List.filterMap_append, List.mem_append, not_or] at ho
      refine ⟨fun he => ho.1 ?_, ho.2⟩
      rw [List.filterMap_cons_some he]
      exact List.mem_cons_self
    -- the line itself moves within the open section or opens another one
    have hmid : m.map Place.kind ≠ some k ∧ mid.code.get k = out.code.get k ∧
        mid.relocations.get k = out.relocations.get k := by
      cases hline with
      | pass => exact ⟨hk, rfl, rfl⟩
      | enter _ j hj =>
        refine ⟨fun he => hlast.1 ?_, rfl, rfl⟩
        rw [← Option.some.inj he]
        simp [Line.opens?, hj, Statement.opens?, Place.start]
      | put p q s rs bs hs hos hf hq =>
        have hne : p.kind ≠ k := fun he => hk (congrArg some he)
        refine ⟨?_, ?_, ?_⟩
        · rw [Option.map_some, Place.kind_of_advance? hq]
          exact hk
        · rw [get_code_put, if_neg fun he => hne he.1, List.append_nil]
        · rw [get_relocations_put, if_neg hne, List.append_nil]
    obtain ⟨h1, h2⟩ := ih hrest hmid.1 hlast.2
    exact ⟨h1.trans hmid.2.1, h2.trans hmid.2.2⟩

end Output

/-! ### Blocks -/

theorem Line.Block.emits_iff {lines : List Line} (h : Line.Block lines) {symbols : SymbolTable}
    {out out' : Output} {here there : Option Place} :
    out.Emits symbols here lines out' there ↔ out.Emits symbols none lines out' there := by
  obtain ⟨line, k, body, -, hs, -⟩ := h
  simp only [Output.emits_cons, Line.lays_enter_iff hs]

namespace Output

variable {symbols : SymbolTable} {blocks : List (List Line)} {out out' : Output}
  {here there : Option Place}

theorem exists_emits_blocks_iff (hB : ∀ B ∈ blocks, Line.Block B) :
    (∃ out' there, out.Emits symbols here blocks.flatten out' there) ↔
      ∀ B ∈ blocks, Line.LaysAlone symbols B := by
  induction blocks generalizing out here with
  | nil => simpa using ⟨out, here, emits_nil.2 ⟨rfl, rfl⟩⟩
  | cons B blocks ih =>
    have hblock := hB B List.mem_cons_self
    have ih := fun {out here} => @ih out here fun C hC => hB C (List.mem_cons_of_mem B hC)
    rw [List.flatten_cons, List.forall_mem_cons]
    constructor
    · rintro ⟨out', there, he⟩
      obtain ⟨mid, m, h1, h2⟩ := emits_append.1 he
      exact ⟨(hblock.emits_iff.1 h1).alone.1, ih.1 ⟨out', there, h2⟩⟩
    · rintro ⟨hfirst, hrest⟩
      obtain ⟨mid, m, h1⟩ := exists_emits_of_laysAlone hfirst out
      obtain ⟨out', there, h2⟩ := ih.2 hrest
      exact ⟨out', there, emits_append.2 ⟨mid, m, hblock.emits_iff.2 h1, h2⟩⟩

theorem Emits.get_blocks (h : out.Emits symbols here blocks.flatten out' there)
    (hB : ∀ B ∈ blocks, Line.Block B) (k : Section) :
    out'.code.get k =
        out.code.get k ++ blocks.flatMap (fun B => (Line.alone symbols B).code.get k) ∧
      out'.relocations.get k =
        out.relocations.get k ++
          blocks.flatMap (fun B => (Line.alone symbols B).relocations.get k) := by
  induction blocks generalizing out here with
  | nil =>
    obtain ⟨rfl, -⟩ := emits_nil.1 h
    exact ⟨(List.append_nil _).symm, (List.append_nil _).symm⟩
  | cons B blocks ih =>
    rw [List.flatten_cons] at h
    obtain ⟨mid, m, h1, h2⟩ := emits_append.1 h
    obtain ⟨hcode, hrelocations⟩ := ((hB B List.mem_cons_self).emits_iff.1 h1).alone.2 k
    obtain ⟨hcode', hrelocations'⟩ := ih h2 fun C hC => hB C (List.mem_cons_of_mem B hC)
    rw [hcode', hcode, hrelocations', hrelocations, List.flatMap_cons, List.flatMap_cons,
      List.append_assoc, List.append_assoc]
    exact ⟨rfl, rfl⟩

end Output

/-- Parts of which at most one holds something can be joined in any order. -/
theorem flatMap_eq_of_perm {α β : Type} {f : α → List β} {xs ys : List α} (hp : xs.Perm ys)
    (h : xs.Pairwise fun a b => f a = [] ∨ f b = []) : xs.flatMap f = ys.flatMap f := by
  induction hp with
  | nil => rfl
  | cons a _ ih => rw [List.flatMap_cons, List.flatMap_cons, ih (List.pairwise_cons.1 h).2]
  | swap a b l =>
    have hab := (List.pairwise_cons.1 h).1 a List.mem_cons_self
    simp only [List.flatMap_cons]
    rcases hab with hb | ha
    · rw [hb, List.nil_append, List.nil_append]
    · rw [ha, List.nil_append, List.nil_append]
  | trans hp _ ih ih' =>
    exact (ih h).trans (ih' ((hp.pairwise_iff fun hab => hab.symm).1 h))

namespace Line

variable {symbols : SymbolTable} {blocks blocks' : List (List Line)}

theorem alone_eq_nil {lines : List Line} (h : LaysAlone symbols lines) {k : Section}
    (hk : k ∉ lines.filterMap opens?) :
    (alone symbols lines).code.get k = [] ∧ (alone symbols lines).relocations.get k = [] := by
  obtain ⟨out, there, he⟩ := h
  rw [alone_eq he]
  exact he.get_of_not_mem (by simp) hk

theorem pairwise_not_mem_opens? (h : (blocks.flatten.filterMap opens?).Nodup) (k : Section) :
    blocks.Pairwise fun B C => k ∉ B.filterMap opens? ∨ k ∉ C.filterMap opens? := by
  rw [List.filterMap_flatten, List.nodup_flatten, List.pairwise_map] at h
  exact h.2.imp fun hdisjoint => not_and_or.1 fun hk => hdisjoint hk.1 hk.2

/-- Blocks of different sections add the same to a section in any order. -/
theorem flatMap_alone_perm (hl : ∀ B ∈ blocks, LaysAlone symbols B)
    (h : (blocks.flatten.filterMap opens?).Nodup) (hp : blocks.Perm blocks') (k : Section) :
    blocks.flatMap (fun B => (alone symbols B).code.get k) =
        blocks'.flatMap (fun B => (alone symbols B).code.get k) ∧
      blocks.flatMap (fun B => (alone symbols B).relocations.get k) =
        blocks'.flatMap (fun B => (alone symbols B).relocations.get k) := by
  have hpair := (pairwise_not_mem_opens? h k).and
    (List.pairwise_of_forall_mem_list (r := fun B C => LaysAlone symbols B ∧ LaysAlone symbols C)
      fun B hB C hC => ⟨hl B hB, hl C hC⟩)
  refine ⟨flatMap_eq_of_perm hp (hpair.imp ?_), flatMap_eq_of_perm hp (hpair.imp ?_)⟩
  · -- of two blocks one does not open the section
    rintro B C ⟨hk, hB, hC⟩
    exact hk.imp (fun hk => (alone_eq_nil hB hk).1) fun hk => (alone_eq_nil hC hk).1
  · rintro B C ⟨hk, hB, hC⟩
    exact hk.imp (fun hk => (alone_eq_nil hB hk).2) fun hk => (alone_eq_nil hC hk).2

end Line

/-! ### The sections that are listed -/

/-- Lines bring up no section besides those that are listed from the start. -/
theorem Output.Emits.keys {symbols : SymbolTable} {lines : List Line} {out out' : Output}
    {here there : Option Place} (h : out.Emits symbols here lines out' there)
    (hkeys : ∀ k : Section, k.hasContents → k ∈ out.code.keys) :
    out'.code.keys = out.code.keys := by
  induction lines generalizing out here with
  | nil =>
    obtain ⟨rfl, -⟩ := emits_nil.1 h
    rfl
  | cons line lines ih =>
    obtain ⟨mid, m, hline, hrest⟩ := emits_cons.1 h
    have hmid : mid.code.keys = out.code.keys := by
      cases hline with
      | pass => rfl
      | enter => rfl
      | put p q s rs bs =>
        unfold put enter
        dsimp only
        rw [code_relocate]
        split_ifs with hc
        · exact (BySection.keys_append _ _ _).trans (if_pos (hkeys p.kind hc))
        · rfl
    rw [ih hrest (hmid ▸ hkeys), hmid]

theorem keys_fresh {lines : List Line} {t : SymbolTable} {out : Output} {there : Option Place}
    (h : Output.fresh.Emits t none lines out there) :
    out.code.keys = Section.all.filter Section.hasContents := by
  rw [h.keys fun k hk => ?_]
  · rfl
  · cases k with
    | bss => cases hk
    | _ => decide

end SS16
