import SS16.Proofs.Emission.Sweep
import Mathlib.Data.Option.Defs

/-!
# SS16.Proofs.Emission.Renumbering — the second sweep under other entry numbers

The second sweep looks at a symbol table through the targets of names alone, and what it adds to an
output does not depend on what is there.  So under a table whose targets have the same values it lays
down the same bytes, and relocations that differ in their entries only.  Main statement:
`Output.Emits.renumbered`.
-/

namespace SS16

/-- Relocations that differ in nothing but their entries, which are related. -/
structure Relocation.Alike (R : UInt16 → UInt16 → Prop) (r q : Relocation) : Prop where
  offset : q.offset = r.offset
  kind : q.kind = r.kind
  entry : R r.entry q.entry

/-- Every name with a target in one table has a target of the same value in the other one, and the
entries are related. -/
def SymbolTable.Renumbers (R : UInt16 → UInt16 → Prop) (t u : SymbolTable) : Prop :=
  ∀ n x, t.target n = .ok x → ∃ y, u.target n = .ok y ∧ y.value = x.value ∧ R x.entry y.entry

theorem SymbolTable.renumbers_refl (t : SymbolTable) : t.Renumbers Eq t :=
  fun _ x h => ⟨x, h, rfl, rfl⟩

theorem Relocation.eq_of_forall₂_alike {rs qs : List Relocation}
    (h : List.Forall₂ (Alike Eq) rs qs) : rs = qs := by
  induction h with
  | nil => rfl
  | @cons r q rs qs hrq _ ih =>
    obtain ⟨offset, kind, entry⟩ := r
    obtain ⟨rfl, rfl, rfl⟩ := hrq
    rw [ih]

structure EncodedWord.Alike (R : UInt16 → UInt16 → Prop) (e e' : EncodedWord) : Prop where
  bytes : e'.bytes = e.bytes
  relocation : List.Forall₂ (Relocation.Alike R) e.relocation.toList e'.relocation.toList

structure EncodedOperand.Alike (R : UInt16 → UInt16 → Prop) (e e' : EncodedOperand) : Prop where
  field : e'.field = e.field
  extra : Option.Rel (EncodedWord.Alike R) e.extra e'.extra

section

variable {R : UInt16 → UInt16 → Prop} {t u : SymbolTable}

/-! ### Instructions -/

theorem ExtraWord.encode_renumbered (h : t.Renumbers R u) {w : ExtraWord} {loc : UInt16}
    {e : EncodedWord} (he : w.encode t loc = .ok e) :
    ∃ e', w.encode u loc = .ok e' ∧ e.Alike R e' := by
  cases w with
  | literal l =>
    obtain ⟨bs, hbs, rfl⟩ := Results.map_eq_ok_iff.1 he
    exact ⟨⟨bs, none⟩, Results.map_eq_ok_iff.2 ⟨bs, hbs, rfl⟩, rfl, .nil⟩
  | reference kind n =>
    obtain ⟨x, hx, rfl⟩ := Results.map_eq_ok_iff.1 he
    obtain ⟨y, hy, hvalue, hentry⟩ := h n x hx
    refine ⟨_, Results.map_eq_ok_iff.2 ⟨y, hy, rfl⟩, ?_, .cons ⟨rfl, rfl, hentry⟩ .nil⟩
    rw [hvalue]

theorem Operand.encode_renumbered (h : t.Renumbers R u) {op : Operand} {loc : UInt16}
    {e : EncodedOperand} (he : op.encode t loc = .ok e) :
    ∃ e', op.encode u loc = .ok e' ∧ e.Alike R e' := by
  unfold encode at he ⊢
  cases hw : op.extra? with
  | none =>
    rw [hw] at he
    cases he
    exact ⟨_, rfl, rfl, .none⟩
  | some w =>
    rw [hw] at he
    obtain ⟨ew, hew, rfl⟩ := Results.map_eq_ok_iff.1 he
    obtain ⟨ew', hew', halike⟩ := ExtraWord.encode_renumbered h hew
    exact ⟨_, Results.map_eq_ok_iff.2 ⟨ew', hew', rfl⟩, rfl, .some halike⟩

theorem EncodedOperand.findSome?_alike {es es' : List EncodedOperand}
    (h : List.Forall₂ (Alike R) es es') :
    Option.Rel (EncodedWord.Alike R) (es.findSome? extra) (es'.findSome? extra) := by
  induction h with
  | nil => exact .none
  | @cons e e' es es' he _ ih =>
    rw [List.findSome?_cons, List.findSome?_cons]
    obtain ⟨field, extra⟩ := e
    obtain ⟨field', extra'⟩ := e'
    cases he.extra with
    | none => exact ih
    | some hew => exact .some hew

theorem Mnemonic.pack_alike {m : Mnemonic} {o : Opcode} {es es' : List EncodedOperand}
    (h : List.Forall₂ (EncodedOperand.Alike R) es es') :
    (m.pack o es').bytes = (m.pack o es).bytes ∧
      List.Forall₂ (Relocation.Alike R) (m.pack o es).relocation.toList
        (m.pack o es').relocation.toList := by
  have hmap : es'.map EncodedOperand.field = es.map EncodedOperand.field := by
    rw [← List.forall₂_eq_eq_eq, List.forall₂_map_left_iff, List.forall₂_map_right_iff]
    exact h.flip.imp fun _ _ he => he.field
  have hfield : ∀ i : Nat, es'[i]?.map EncodedOperand.field = es[i]?.map EncodedOperand.field := by
    intro i
    rw [← List.getElem?_map, ← List.getElem?_map, hmap]
  have hextra := EncodedOperand.findSome?_alike h
  unfold pack
  dsimp only
  rw [hfield, hfield]
  generalize es.findSome? EncodedOperand.extra = x at hextra
  generalize es'.findSome? EncodedOperand.extra = y at hextra
  cases hextra with
  | none => exact ⟨rfl, .nil⟩
  | some he =>
    refine ⟨?_, he.relocation⟩
    dsimp only
    rw [he.bytes]

theorem Mnemonic.encodeOperands_renumbered (h : t.Renumbers R u) {m : Mnemonic} {loc : UInt16}
    {ops : List Operand} {e : EncodedInstruction} (he : m.encodeOperands t loc ops = .ok e) :
    ∃ e', m.encodeOperands u loc ops = .ok e' ∧ e'.bytes = e.bytes ∧
      List.Forall₂ (Relocation.Alike R) e.relocation.toList e'.relocation.toList := by
  cases hes : (m.operation.expand ops).2.mapM (Operand.encode t loc) with
  | error f =>
    unfold encodeOperands at he
    dsimp only at he
    rw [hes] at he
    cases he
  | ok es =>
    have hall := Results.mapM_eq_ok_iff.1 hes
    obtain ⟨es', hes', halike⟩ := Results.exists_forall₂ hall fun _ _ he =>
      Operand.encode_renumbered h he
    have hes' := Results.mapM_eq_ok_iff.2 hes'
    -- the operands have as many extra words under both tables
    have hlength : (es'.filterMap EncodedOperand.extra).length =
        (es.filterMap EncodedOperand.extra).length :=
      (Operand.extras_of_encode (Results.mapM_eq_ok_iff.1 hes')).length_eq.symm.trans
        (Operand.extras_of_encode hall).length_eq
    rw [encodeOperands_of_mapM hes] at he
    rw [encodeOperands_of_mapM hes', hlength]
    split_ifs at he ⊢
    cases he
    exact ⟨_, rfl, pack_alike halike⟩

/-! ### Fragments -/

theorem Width.fragment_renumbered (h : t.Renumbers R u) {w : Width} {loc : UInt16} {arg : String}
    {rs : List Relocation} {bs : List UInt8} (hf : w.fragment t loc arg = ⟨rs, .ok bs⟩) :
    ∃ rs', w.fragment u loc arg = ⟨rs', .ok bs⟩ ∧ List.Forall₂ (Relocation.Alike R) rs rs' := by
  rcases fragment_eq_ok hf with ⟨v, hv, rfl, hbs⟩ | ⟨x, hv, hx, rfl, hbs⟩
  · refine ⟨[], ?_, .nil⟩
    rw [fragment, hv, ← hbs]
  · obtain ⟨y, hy, hvalue, hentry⟩ := h arg x hx
    refine ⟨[⟨loc, .absolute, y.entry⟩], ?_, .cons ⟨rfl, rfl, hentry⟩ .nil⟩
    rw [fragment, hv]
    dsimp only
    rw [hy]
    dsimp only
    rw [hvalue, hbs]

theorem Width.fragmentsFrom_renumbered (h : t.Renumbers R u) {w : Width} {loc : UInt16}
    {args : List String} {i : Nat} {rs : List Relocation} {bs : List UInt8}
    (hf : w.fragmentsFrom t loc args i = ⟨rs, .ok bs⟩) :
    ∃ rs', w.fragmentsFrom u loc args i = ⟨rs', .ok bs⟩ ∧
      List.Forall₂ (Relocation.Alike R) rs rs' := by
  induction args generalizing i rs bs with
  | nil =>
    cases hf
    exact ⟨[], rfl, .nil⟩
  | cons arg args ih =>
    rw [fragmentsFrom_cons] at hf
    obtain ⟨rs₁, xs, rs₂, ys, h1, h2, rfl, rfl⟩ := Fragment.append_eq_ok.1 hf
    obtain ⟨qs₁, h1', hr1⟩ := fragment_renumbered h h1
    obtain ⟨qs₂, h2', hr2⟩ := ih h2
    refine ⟨qs₁ ++ qs₂, ?_, List.rel_append hr1 hr2⟩
    rw [fragmentsFrom_cons]
    exact Fragment.append_eq_ok.2 ⟨_, _, _, _, h1', h2', rfl, rfl⟩

theorem Statement.fragment_renumbered (h : t.Renumbers R u) {s : Statement} {p : Place}
    {rs : List Relocation} {bs : List UInt8} (hf : s.fragment t p = ⟨rs, .ok bs⟩) :
    ∃ rs', s.fragment u p = ⟨rs', .ok bs⟩ ∧ List.Forall₂ (Relocation.Alike R) rs rs' := by
  cases s with
  | data w args =>
    unfold fragment at hf ⊢
    dsimp only at hf ⊢
    split_ifs at hf ⊢
    · cases hf
    · exact Width.fragmentsFrom_renumbered h hf
  | instruction m args =>
    cases puts_of_fragment hf with
    | instruction _ _ ops e hk hops hlen he =>
      obtain ⟨e', he', hbytes, hrelocation⟩ := Mnemonic.encodeOperands_renumbered h he
      refine ⟨e'.relocation.toList, ?_, hrelocation⟩
      have hargs : args.length = m.operation.arity :=
        (Results.mapM_eq_ok_iff.1 hops).length_eq.trans hlen
      have hencode : m.encode u p.location args = .ok e' := by
        unfold Mnemonic.encode
        rw [if_pos hargs, hops]
        exact he'
      show (if p.kind = .text then Fragment.ofInstruction (m.encode u p.location args) else _) = _
      rw [if_pos hk, hencode, ← hbytes]
      rfl
    | nothing _ hn => cases hn
  | align n =>
    unfold fragment at hf ⊢
    dsimp only at hf ⊢
    cases ha : alignUp p.location n with
    | none =>
      rw [ha] at hf
      cases hf
    | some a =>
      rw [ha] at hf
      cases hf
      exact ⟨[], rfl, .nil⟩
  | skip n | stop | enter _ | global _ =>
    cases hf
    exact ⟨[], rfl, .nil⟩

/-! ### Lines -/

/-- Between two outputs as much is added as between two others: the same bytes, and relocations
alike. -/
structure Output.AddsAlike (R : UInt16 → UInt16 → Prop) (out out' o o' : Output) : Prop where
  code : ∀ k, ∃ bs, out'.code.get k = out.code.get k ++ bs ∧ o'.code.get k = o.code.get k ++ bs
  relocations : ∀ k, ∃ rs qs, out'.relocations.get k = out.relocations.get k ++ rs ∧
    o'.relocations.get k = o.relocations.get k ++ qs ∧ List.Forall₂ (Relocation.Alike R) rs qs

namespace Output

theorem addsAlike_refl (R : UInt16 → UInt16 → Prop) (out o : Output) : AddsAlike R out out o o where
  code _ := ⟨[], (List.append_nil _).symm, (List.append_nil _).symm⟩
  relocations _ := ⟨[], [], (List.append_nil _).symm, (List.append_nil _).symm, .nil⟩

theorem AddsAlike.trans {out mid out' o m o' : Output} (h : AddsAlike R out mid o m)
    (h' : AddsAlike R mid out' m o') : AddsAlike R out out' o o' where
  code k := by
    obtain ⟨bs, h1, h2⟩ := h.code k
    obtain ⟨bs', h3, h4⟩ := h'.code k
    exact ⟨bs ++ bs', by rw [h3, h1, List.append_assoc], by rw [h4, h2, List.append_assoc]⟩
  relocations k := by
    obtain ⟨rs, qs, h1, h2, hrel⟩ := h.relocations k
    obtain ⟨rs', qs', h3, h4, hrel'⟩ := h'.relocations k
    exact ⟨rs ++ rs', qs ++ qs', by rw [h3, h1, List.append_assoc],
      by rw [h4, h2, List.append_assoc], List.rel_append hrel hrel'⟩

theorem addsAlike_put {row row' : Nat} {p : Place} {rs qs : List Relocation} {bs : List UInt8}
    (h : List.Forall₂ (Relocation.Alike R) rs qs) (out o : Output) :
    AddsAlike R out (out.put row p rs bs) o (o.put row' p qs bs) where
  code k := ⟨_, out.get_code_put row p rs bs k, o.get_code_put row' p qs bs k⟩
  relocations k := by
    refine ⟨_, _, out.get_relocations_put row p rs bs k, o.get_relocations_put row' p qs bs k, ?_⟩
    split_ifs
    · exact h
    · exact .nil

end Output

theorem Line.Lays.renumbered (h : t.Renumbers R u) {line line' : Line}
    (hs : line'.statement = line.statement) {out out' : Output} {here there : Option Place}
    (hl : line.Lays t out here out' there) (o : Output) :
    ∃ o', line'.Lays u o here o' there ∧ Output.AddsAlike R out out' o o' := by
  cases hl with
  | pass _ hp => exact ⟨o, .pass o here (hs ▸ hp), Output.addsAlike_refl R out o⟩
  | enter _ k hk => exact ⟨o, .enter o here k (hs.trans hk), Output.addsAlike_refl R out o⟩
  | put p q s rs bs hst ho hf hq =>
    obtain ⟨qs, hf', hrel⟩ := Statement.fragment_renumbered h hf
    exact ⟨_, .put o p q s qs bs (hs.trans hst) ho hf' hq, Output.addsAlike_put hrel out o⟩

/-- Lines lay down the same bytes under a table with the same values, whatever their rows and
whatever is there already, and relocations that differ in their entries only. -/
theorem Output.Emits.renumbered (h : t.Renumbers R u) {lines lines' : List Line}
    (hs : lines'.map Line.statement = lines.map Line.statement) {out out' : Output}
    {here there : Option Place} (he : out.Emits t here lines out' there) (o : Output) :
    ∃ o', o.Emits u here lines' o' there ∧ AddsAlike R out out' o o' := by
  induction lines generalizing lines' out o here with
  | nil =>
    obtain ⟨rfl, rfl⟩ := emits_nil.1 he
    obtain rfl := List.map_eq_nil_iff.1 hs
    exact ⟨o, emits_nil.2 ⟨rfl, rfl⟩, addsAlike_refl R out o⟩
  | cons line lines ih =>
    obtain ⟨line', lines', rfl, hline, hrest⟩ := List.map_eq_cons_iff.1 hs
    obtain ⟨mid, here', h1, h2⟩ := emits_cons.1 he
    obtain ⟨m, h1', hadd⟩ := h1.renumbered h hline o
    obtain ⟨o', h2', hadd'⟩ := ih hrest h2 m
    exact ⟨o', emits_cons.2 ⟨m, here', h1', h2'⟩, hadd.trans hadd'⟩

end

end SS16
