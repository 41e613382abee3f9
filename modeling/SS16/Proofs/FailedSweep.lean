import SS16.Proofs.Emission.Sweep
import SS16.Proofs.Source.Fronts

/-!
# SS16.Proofs.FailedSweep — what the second sweep leaves when it fails

A sweep that fails in a row leaves the bytes and the listing of the rows before it.  Data and an
instruction that does not fit may also leave relocations, at most one for each reference, in the
section that is open there.  Main statements: `Line.leaves_of_effect`,
`Program.exists_front_of_emit` and `emit_fault`.
-/

namespace SS16

/-- A relocation stands for a reference: it is of its kind, is for the word there and waits for the
entry of the target. -/
structure Reference.MarkedBy (symbols : SymbolTable) (ref : Reference) (r : Relocation) : Prop where
  offset : r.offset = ref.offset
  kind : r.kind = ref.kind
  target : ∃ t, symbols.target ref.name = .ok t ∧ r.entry = t.entry

/-- The relocations that a statement may leave although it fails.  Data leaves those of its first
references, and an instruction that does not fit the one of its only reference. -/
inductive Statement.Leaves (symbols : SymbolTable) (p : Place) :
    Statement → Fault → List Relocation → Prop
  | data (w : Width) (args : List String) (f : Fault) {refs : List Reference}
    {rs : List Relocation} (hrefs : refs <+: (Statement.data w args).references p.location)
    (hrs : List.Forall₂ (Reference.MarkedBy symbols) refs rs) : Leaves symbols p (.data w args) f rs
  | instruction (m : Mnemonic) (args : List String) {ref : Reference} {r : Relocation}
    (href : (Statement.instruction m args).references p.location = [ref])
    (hr : ref.MarkedBy symbols r) :
    Leaves symbols p (.instruction m args) (.sectionOverflow p.kind) [r]

/-! ### One line -/

namespace Width

theorem marked_of_fragment (w : Width) (symbols : SymbolTable) (loc : UInt16) (arg : String) :
    List.Forall₂ (Reference.MarkedBy symbols) (w.reference? loc arg).toList
        (w.fragment symbols loc arg).relocations ∨
      ∃ f, w.fragment symbols loc arg = .fault f := by
  unfold fragment reference?
  cases hv : Numeral.integer? arg with
  | some v => exact .inl .nil
  | none =>
    cases ht : symbols.target arg with
    | error f => exact .inr ⟨f, rfl⟩
    | ok t => exact .inl (.cons ⟨rfl, rfl, t, ht, rfl⟩ .nil)

theorem marked_of_fragmentsFrom (w : Width) (symbols : SymbolTable) (loc : UInt16)
    (args : List String) (i : Nat) :
    ∃ refs, refs <+: w.references loc args i ∧
      List.Forall₂ (Reference.MarkedBy symbols) refs
        (w.fragmentsFrom symbols loc args i).relocations := by
  induction args generalizing i with
  | nil => exact ⟨[], List.nil_prefix, .nil⟩
  | cons arg args ih =>
    obtain ⟨refs, hrefs, hrs⟩ := ih (i + 1)
    rw [references_cons, fragmentsFrom_cons]
    rcases w.marked_of_fragment symbols (loc + UInt16.ofNat (i * w.size)) arg with hm | ⟨f, hf⟩
    · generalize w.fragment symbols (loc + UInt16.ofNat (i * w.size)) arg = part at hm
      obtain ⟨rs, bytes⟩ := part
      cases bytes with
      -- a value that does not fit comes after the relocation for it
      | error f => exact ⟨_, List.prefix_append _ _, hm⟩
      | ok xs =>
        exact ⟨_, (List.prefix_append_right_inj _).2 hrefs, List.rel_append hm hrs⟩
    · rw [hf]
      exact ⟨[], List.nil_prefix, .nil⟩

end Width

theorem Mnemonic.marked_of_encodeOperands {m : Mnemonic} {symbols : SymbolTable} {loc : UInt16}
    {ops : List Operand} {e : EncodedInstruction} (hlen : ops.length = m.operation.arity)
    (h : m.encodeOperands symbols loc ops = .ok e) :
    List.Forall₂ (Reference.MarkedBy symbols) (Operand.references loc ops) e.relocation.toList := by
  obtain ⟨word, ews, hwords, -, -, -, hrelocation⟩ := words_of_encodeOperands hlen h
  rw [hrelocation, Operand.references_eq]
  refine List.rel_filterMap (fun w ew hw => ?_) hwords
  cases w with
  | literal l =>
    obtain ⟨bs, -, rfl⟩ := Results.map_eq_ok_iff.1 hw
    exact .none
  | reference kind name =>
    obtain ⟨t, ht, rfl⟩ := Results.map_eq_ok_iff.1 hw
    exact .some ⟨rfl, rfl, t, ht, rfl⟩

/-- Only data and an instruction that does not fit bring relocations and fail. -/
theorem Statement.leaves_of_fragment {s : Statement} {symbols : SymbolTable} {p : Place} {f : Fault}
    (hf : ∀ bs, (s.fragment symbols p).bytes = .ok bs → f = p.overflow)
    (hne : (s.fragment symbols p).relocations ≠ []) :
    s.Leaves symbols p f (s.fragment symbols p).relocations := by
  cases s with
  | data w args =>
    by_cases hc : !args.isEmpty && !p.kind.hasContents
    · have hfragment : (Statement.data w args).fragment symbols p = .fault .dataInBss := if_pos hc
      rw [hfragment] at hne
      exact absurd rfl hne
    · have hfragment : (Statement.data w args).fragment symbols p =
          w.fragmentsFrom symbols p.location args 0 := if_neg hc
      obtain ⟨refs, hrefs, hrs⟩ := w.marked_of_fragmentsFrom symbols p.location args 0
      rw [hfragment]
      exact .data w args f hrefs hrs
  | instruction m args =>
    by_cases hk : p.kind = .text
    · have hfragment : (Statement.instruction m args).fragment symbols p =
          .ofInstruction (m.encode symbols p.location args) := if_pos hk
      rw [hfragment] at hf hne ⊢
      cases he : m.encode symbols p.location args with
      | error f' =>
        rw [he] at hne
        exact absurd rfl hne
      | ok e =>
        rw [he] at hf hne
        obtain ⟨ops, hops, hlen, hencoded⟩ := Mnemonic.encode_eq_ok he
        have hmarked := Mnemonic.marked_of_encodeOperands hlen hencoded
        rw [← references_instruction hops m] at hmarked
        -- the instruction itself is fine, so there is no room for it
        rw [hf e.bytes rfl]
        show Leaves symbols p _ _ e.relocation.toList
        have hne : e.relocation.toList ≠ [] := hne
        cases hr : e.relocation with
        | none => exact absurd (by rw [hr]; rfl) hne
        | some r =>
          rw [hr] at hmarked
          obtain ⟨ref, refs, href, hrefs, hlist⟩ := List.forall₂_cons_right_iff.1 hmarked
          rw [List.forall₂_nil_right_iff.1 hrefs] at hlist
          exact .instruction m args hlist href
    · have hfragment : (Statement.instruction m args).fragment symbols p =
          .fault (.instructionIn p.kind) := if_neg hk
      rw [hfragment] at hne
      exact absurd rfl hne
  | align n =>
    refine absurd ?_ hne
    unfold Statement.fragment
    dsimp only
    split <;> rfl
  | skip n | stop | enter k | global names => exact absurd rfl hne

theorem Line.leaves_of_effect {symbols : SymbolTable} {line : Line} {here : Option Place} {f : Fault}
    (h : (line.effect symbols here).outcome = .error f)
    (hne : (line.effect symbols here).relocations ≠ []) :
    ∃ p s, here = some p ∧ line.statement = some s ∧
      s.Leaves symbols p f (line.effect symbols here).relocations := by
  obtain ⟨s, hs, ho, -⟩ := fault_of_effect h
  rw [effect_of_occupies hs ho] at h hne ⊢
  cases here with
  | none => exact absurd rfl hne
  | some p =>
    refine ⟨p, s, rfl, hs, Statement.leaves_of_fragment (fun bs hbs => ?_) hne⟩
    dsimp only [Effect.lay] at h
    rw [hbs] at h
    dsimp only at h
    cases hq : p.advance? bs.length with
    | none =>
      rw [hq] at h
      exact (Except.error.inj h).symm
    | some q =>
      rw [hq] at h
      cases h

/-! ### Many lines -/

namespace Output

variable {symbols : SymbolTable} {out out' : Output} {here there : Option Place}

theorem Emits.next_eq {lines : List Line} (h : out.Emits symbols here lines out' there) :
    lines.foldl Line.next here = there := by
  induction lines generalizing out here with
  | nil => exact (emits_nil.1 h).2
  | cons line lines ih =>
    obtain ⟨mid, m, hline, hrest⟩ := emits_cons.1 h
    rw [List.foldl_cons, hline.next_eq]
    exact ih hrest

theorem Emits.kind_eq {lines : List Line} (h : out.Emits symbols none lines out' there) :
    there.map Place.kind = (lines.filterMap Line.opens?).getLast? := by
  rw [← h.next_eq, Line.kind_foldl_next]
  exact Option.or_none

/-- Lines that fail leave what those before the faulty one lay down, and the relocations of its own
effect. -/
theorem exists_of_emit_error {lines : List Line} {l : Located}
    (h : out.emit symbols here lines = (out', .error l)) :
    ∃ xs line ys mid m f, lines = xs ++ line :: ys ∧ out.Emits symbols here xs mid m ∧
      (line.effect symbols m).outcome = .error f ∧ l = f.inRow line.row ∧
      out' = mid.relocateAt m (line.effect symbols m).relocations := by
  obtain ⟨xs, line, ys, mid, m, f, rfl, hxs, hf, rfl⟩ := exists_of_emit_eq_error h
  refine ⟨xs, line, ys, mid, m, f, rfl, hxs, hf, rfl, ?_⟩
  unfold Emits at hxs
  rw [emit_append, hxs] at h
  dsimp only at h
  rw [emit, hf] at h
  exact (congrArg Prod.fst h).symm

theorem relocateAt_nil (out : Output) (here : Option Place) : out.relocateAt here [] = out := by
  cases here <;> rfl

theorem relocateAt_of_ne_nil {rs : List Relocation} (h : rs ≠ []) (out : Output) (p : Place) :
    out.relocateAt (some p) rs = { out with relocations := out.relocations.append p.kind rs } :=
  if_neg (by rwa [List.isEmpty_iff])

end Output

/-! ### Sources -/

namespace Program

theorem ofSource_front {source : String} {xs rest : List Line} {fault : Option (Nat × Fault)}
    (h : ofSource source = ⟨xs ++ rest, fault⟩) (hmore : rest ≠ [] ∨ fault ≠ none) :
    ofSource (Text.front xs.length source) = ⟨xs, none⟩ ∧
      ofRows ((Text.rows source).drop xs.length) xs.length = ⟨rest, fault⟩ := by
  obtain ⟨hfront, hrest⟩ := ofRows_take_drop h hmore
  rw [Nat.zero_add] at hrest
  refine ⟨?_, hrest⟩
  unfold ofSource
  rw [Text.rows_front]
  exact hfront

theorem emit_of_emits {p : Program} {symbols : SymbolTable} {out out' : Output}
    {there : Option Place} (h : out.Emits symbols none p.lines out' there) (hf : p.fault = none) :
    p.emit symbols out = (out', none) := by
  unfold Output.Emits at h
  unfold emit
  rw [h, hf]
  rfl

/-- A sweep over a source fails in a row that follows rows without a fault, and adds the relocations
of the line there if the row is one. -/
theorem exists_front_of_emit {source : String} {symbols : SymbolTable} {out out' : Output}
    {l : Located} (h : (ofSource source).emit symbols out = (out', some l)) :
    ∃ i raw lines mid here rs, l.row = some i ∧ (Text.rows source)[i]? = some raw ∧
      ofSource (Text.front i source) = ⟨lines, none⟩ ∧ out.Emits symbols none lines mid here ∧
      out' = mid.relocateAt here rs ∧
      (rs ≠ [] → ∃ line, Line.parse i raw = .ok line ∧
        line.effect symbols here = ⟨rs, .error l.fault⟩) := by
  unfold emit at h
  cases he : out.emit symbols none (ofSource source).lines with
  | mk o result =>
    rw [he] at h
    cases result with
    | error l' =>
      -- a line fails
      obtain ⟨rfl, hl⟩ := Prod.mk.inj h
      obtain rfl := Option.some.inj hl
      obtain ⟨xs, line, ys, mid, m, f, hlines, hxs, hf, rfl, rfl⟩ := Output.exists_of_emit_error he
      have hsource : ofSource source = ⟨xs ++ line :: ys, (ofSource source).fault⟩ :=
        congrArg (Program.mk · _) hlines
      obtain ⟨hfront, hrest⟩ := ofSource_front hsource (.inl (List.cons_ne_nil _ _))
      obtain ⟨raw, hraw, hparse⟩ := parse_of_ofRows_cons hrest
      rw [List.head?_drop] at hraw
      exact ⟨xs.length, raw, xs, mid, m, _, congrArg some (Line.row_of_parse hparse), hraw, hfront,
        hxs, rfl, fun _ => ⟨line, hparse, congrArg (Effect.mk _) hf⟩⟩
    | ok here =>
      -- a row behind all lines is none
      obtain ⟨rfl, hl⟩ := Prod.mk.inj h
      obtain ⟨⟨i, f⟩, hfault, rfl⟩ := Option.map_eq_some_iff.1 hl
      have hsource : ofSource source = ⟨(ofSource source).lines ++ [], some (i, f)⟩ := by
        rw [List.append_nil, ← hfault]
      obtain ⟨hfront, hrest⟩ := ofSource_front hsource (.inr (Option.some_ne_none _))
      obtain ⟨rfl, raw, hraw, hparse⟩ := parse_of_ofRows_fault hrest
      rw [List.head?_drop] at hraw
      exact ⟨_, raw, _, o, here, [], rfl, hraw, hfront, he, (o.relocateAt_nil here).symm,
        fun hne => absurd rfl hne⟩

end Program

/-- A second sweep that fails in a row leaves the bytes and the listing that it leaves, without a
fault, over the rows before it.  If it leaves more relocations than that, the row is data or an
instruction without room, and they stand behind those of the open section. -/
theorem emit_fault {source : String} {symbols : SymbolTable} {out out' : Output} {l : Located}
    (h : (Program.ofSource source).emit symbols out = (out', some l)) :
    ∃ i raw mid here, l.row = some i ∧ (Text.rows source)[i]? = some raw ∧
      (Program.ofSource (Text.front i source)).emit symbols out = (mid, none) ∧
      out.Emits symbols none (Program.ofSource (Text.front i source)).lines mid here ∧
      out'.code = mid.code ∧ out'.listing = mid.listing ∧
      (out'.relocations = mid.relocations ∨
        ∃ p line s rs, here = some p ∧
          ((Program.ofSource (Text.front i source)).lines.filterMap Line.opens?).getLast? =
            some p.kind ∧
          Line.parse i raw = .ok line ∧ line.statement = some s ∧
          s.Leaves symbols p l.fault rs ∧ rs ≠ [] ∧
          out'.relocations = mid.relocations.append p.kind rs) := by
  obtain ⟨i, raw, lines, mid, here, rs, hrow, hraw, hfront, hlines, rfl, hrs⟩ :=
    Program.exists_front_of_emit h
  refine ⟨i, raw, mid, here, hrow, hraw, ?_⟩
  rw [hfront]
  refine ⟨Program.emit_of_emits hlines rfl, hlines, ?_⟩
  by_cases hne : rs = []
  · rw [hne, Output.relocateAt_nil]
    exact ⟨rfl, rfl, .inl rfl⟩
  · obtain ⟨line, hparse, heffect⟩ := hrs hne
    have hf : (line.effect symbols here).outcome = .error l.fault := by rw [heffect]
    have hrelocations : (line.effect symbols here).relocations = rs := by rw [heffect]
    obtain ⟨p, s, rfl, hs, hleaves⟩ := Line.leaves_of_effect hf (hrelocations ▸ hne)
    rw [hrelocations] at hleaves
    rw [Output.relocateAt_of_ne_nil hne]
    exact ⟨rfl, rfl, .inr ⟨p, line, s, rs, rfl, hlines.kind_eq.symm, hparse, hs, hleaves, hne, rfl⟩⟩

theorem emit_fault_after_two_references :
    ∃ symbols out' mid,
      (Program.ofSource ".data\n.char 1\n.word a a b\n.char 2").emit symbols .fresh =
          (out', some ⟨some 2, .missingSymbol "b"⟩) ∧
        (Program.ofSource ".data\n.char 1\n").emit symbols .fresh = (mid, none) ∧
        out'.code = mid.code ∧ out'.listing = mid.listing ∧
        out'.relocations =
          mid.relocations.append .data [⟨1, .absolute, 5⟩, ⟨3, .absolute, 5⟩] := by
  let symbols := ((Program.ofSource ".global a").layout .empty).symbols
  have hresult : ((Program.ofSource ".data\n.char 1\n.word a a b\n.char 2").emit symbols .fresh).2 =
      some ⟨some 2, .missingSymbol "b"⟩ := by decide +kernel
  have hrelocations :
      ((Program.ofSource ".data\n.char 1\n.word a a b\n.char 2").emit symbols
          .fresh).1.relocations =
        ((Program.ofSource ".data\n.char 1\n").emit symbols .fresh).1.relocations.append .data
          [⟨1, .absolute, 5⟩, ⟨3, .absolute, 5⟩] := by decide +kernel
  have hfront : Text.front 2 ".data\n.char 1\n.word a a b\n.char 2" = ".data\n.char 1\n" := by
    decide +kernel
  cases hfails : (Program.ofSource ".data\n.char 1\n.word a a b\n.char 2").emit symbols .fresh with
  | mk out' result =>
    rw [hfails] at hresult hrelocations
    obtain rfl : result = _ := hresult
    obtain ⟨i, raw, mid, here, hrow, -, hmid, -, hcode, hlisting, -⟩ := emit_fault hfails
    obtain rfl : 2 = i := Option.some.inj hrow
    rw [hfront] at hmid
    rw [hmid] at hrelocations
    exact ⟨symbols, out', mid, hfails, hmid, hcode, hlisting, hrelocations⟩

end SS16
