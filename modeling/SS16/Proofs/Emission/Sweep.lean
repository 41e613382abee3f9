import SS16.Assembly
import SS16.Proofs.Emission.References
import SS16.Proofs.Layout.Program

/-!
# SS16.Proofs.Emission.Sweep — the second sweep beside the first

`Line.Lays` says what one line does to the output when it has no fault, and `Output.Emits` what lines
do.  `Layout.InStep`: the output holds as many bytes of each section as the layout counts.  Main
statements: `Layout.InStep.emits` (the sweeps stay in step) and `Program.assemble_eq_ok_iff` (when a
program is assembled).
-/

namespace SS16

namespace Output

def put (out : Output) (row : Nat) (p : Place) (rs : List Relocation) (bs : List UInt8) : Output :=
  (out.relocate p.kind rs).enter ⟨row, p.kind, p.location, if p.kind.hasContents then bs else []⟩

theorem code_relocate (out : Output) (k : Section) (rs : List Relocation) :
    (out.relocate k rs).code = out.code := by
  unfold relocate
  split <;> rfl

theorem relocations_put (out : Output) (row : Nat) (p : Place) (rs : List Relocation)
    (bs : List UInt8) :
    (out.put row p rs bs).relocations =
      if rs.isEmpty then out.relocations else out.relocations.append p.kind rs := by
  show (out.relocate p.kind rs).relocations = _
  unfold relocate
  split <;> rfl

theorem code_put (out : Output) (row : Nat) (p : Place) (rs : List Relocation)
    (bs : List UInt8) :
    (out.put row p rs bs).code =
      if p.kind.hasContents then out.code.append p.kind bs else out.code := by
  unfold put enter
  dsimp only
  rw [code_relocate]
  split <;> rfl

theorem get_relocations_put (out : Output) (row : Nat) (p : Place) (rs : List Relocation)
    (bs : List UInt8) (k : Section) :
    (out.put row p rs bs).relocations.get k =
      out.relocations.get k ++ if p.kind = k then rs else [] := by
  rw [relocations_put]
  cases rs with
  | nil => simp
  | cons r rs =>
    rw [if_neg (by simp), BySection.get_append]
    split
    · rfl
    · exact (List.append_nil _).symm

theorem get_code_put (out : Output) (row : Nat) (p : Place) (rs : List Relocation)
    (bs : List UInt8) (k : Section) :
    (out.put row p rs bs).code.get k =
      out.code.get k ++ if p.kind = k ∧ p.kind.hasContents then bs else [] := by
  rw [code_put]
  by_cases hc : p.kind.hasContents
  · rw [if_pos hc, BySection.get_append]
    by_cases hk : p.kind = k
    · rw [if_pos hk, if_pos ⟨hk, hc⟩]
    · rw [if_neg hk, if_neg fun h => hk h.1, List.append_nil]
  · rw [if_neg hc, if_neg fun h => hc h.2, List.append_nil]

theorem listing_put (out : Output) (row : Nat) (p : Place) (rs : List Relocation)
    (bs : List UInt8) :
    (out.put row p rs bs).listing.toList =
      out.listing.toList ++ [⟨row, p.kind, p.location, if p.kind.hasContents then bs else []⟩] := by
  show ((out.relocate p.kind rs).listing.push _).toList = _
  unfold relocate
  split <;> simp

end Output

/-! ### One line -/

/-- What a line without a fault does to the output and the place. -/
inductive Line.Lays (symbols : SymbolTable) (line : Line) :
    Output → Option Place → Output → Option Place → Prop
  | pass (out : Output) (here : Option Place)
    (h : ∀ s, line.statement = some s → s.occupies = false ∧ s.opens? = none) :
    Lays symbols line out here out here
  | enter (out : Output) (here : Option Place) (k : Section)
    (h : line.statement = some (.enter k)) : Lays symbols line out here out (some (.start k))
  | put (out : Output) (p q : Place) (s : Statement) (rs : List Relocation) (bs : List UInt8)
    (hs : line.statement = some s) (ho : s.occupies) (hf : s.fragment symbols p = ⟨rs, .ok bs⟩)
    (hq : p.advance? bs.length = some q) :
    Lays symbols line out (some p) (out.put line.row p rs bs) (some q)

namespace Statement

theorem opens?_of_occupies {s : Statement} (h : s.occupies) : s.opens? = none := by
  cases s with
  | stop | enter _ | global _ => cases h
  | _ => rfl

theorem next_of_not_occupies {s : Statement} (ho : s.occupies = false) (hs : s.opens? = none)
    (here : Option Place) : s.steps.foldl Step.next here = here := by
  cases s with
  | global names =>
    refine Step.foldl_next_eq_self (fun t ht here => ?_) here
    obtain ⟨n, -, rfl⟩ := List.mem_map.1 ht
    unfold shareStep
    split <;> rfl
  | stop => rfl
  | enter k => cases hs
  | _ => cases ho

end Statement

namespace Line

theorem effect_of_occupies {line : Line} {s : Statement} (hs : line.statement = some s)
    (ho : s.occupies) (symbols : SymbolTable) (here : Option Place) :
    line.effect symbols here =
      match here with
      | none => ⟨[], .error (.outsideSection s.heading)⟩
      | some p => .lay line.row p (s.fragment symbols p) := by
  unfold effect
  rw [hs]
  cases s with
  | stop | enter _ | global _ => cases ho
  | _ => rfl

theorem effect_of_not_occupies {line : Line}
    (h : ∀ s, line.statement = some s → s.occupies = false ∧ s.opens? = none)
    (symbols : SymbolTable) (here : Option Place) : line.effect symbols here = .pass here := by
  unfold effect
  cases hs : line.statement with
  | none => rfl
  | some s =>
    obtain ⟨ho, hn⟩ := h s hs
    cases s with
    | stop | global _ => rfl
    | enter k => cases hn
    | _ => cases ho

theorem statement_cases (line : Line) :
    (∀ s, line.statement = some s → s.occupies = false ∧ s.opens? = none) ∨
      (∃ k, line.statement = some (.enter k)) ∨ ∃ s, line.statement = some s ∧ s.occupies := by
  cases hs : line.statement with
  | none => exact .inl fun s h => by cases h
  | some s =>
    cases s with
    | enter k => exact .inr (.inl ⟨k, rfl⟩)
    | stop | global _ => exact .inl fun s h => by cases h; exact ⟨rfl, rfl⟩
    | _ => exact .inr (.inr ⟨_, rfl, rfl⟩)

/-- Both sweeps are at the same place after a line. -/
theorem Lays.next_eq {symbols : SymbolTable} {line : Line} {out out' : Output}
    {here there : Option Place} (h : line.Lays symbols out here out' there) :
    line.next here = there := by
  cases h with
  | pass _ h =>
    cases hs : line.statement with
    | none => exact next_of_none hs _
    | some s =>
      obtain ⟨ho, hn⟩ := h s hs
      rw [next_of_some hs]
      exact s.next_of_not_occupies ho hn _
  | enter _ k h =>
    rw [next_of_some h]
    rfl
  | put p q s rs bs hs ho hf hq =>
    rw [next_of_some hs]
    exact (Statement.puts_of_fragment hf).next ho hq

/-- Why a line is refused: it stands outside of a section, its fragment fails or does not fit. -/
theorem fault_of_effect {symbols : SymbolTable} {line : Line} {here : Option Place} {f : Fault}
    (h : (line.effect symbols here).outcome = .error f) :
    ∃ s, line.statement = some s ∧ s.occupies ∧
      (here = none ∨ ∃ p, here = some p ∧ ((s.fragment symbols p).bytes = .error f ∨
        ∃ rs bs, s.fragment symbols p = ⟨rs, .ok bs⟩ ∧ p.advance? bs.length = none)) := by
  rcases line.statement_cases with hp | ⟨k, hk⟩ | ⟨s, hs, ho⟩
  · rw [effect_of_not_occupies hp] at h
    cases h
  · unfold effect at h
    rw [hk] at h
    cases h
  · refine ⟨s, hs, ho, ?_⟩
    rw [effect_of_occupies hs ho] at h
    cases here with
    | none => exact .inl rfl
    | some p =>
      refine .inr ⟨p, rfl, ?_⟩
      have h : (Effect.lay line.row p (s.fragment symbols p)).outcome = .error f := h
      generalize s.fragment symbols p = part at h ⊢
      obtain ⟨rs, bytes⟩ := part
      cases bytes with
      | error f' =>
        cases h
        exact .inl rfl
      | ok bs =>
        refine .inr ⟨rs, bs, rfl, ?_⟩
        cases hq : p.advance? bs.length with
        | none => rfl
        | some q =>
          dsimp only [Effect.lay] at h
          rw [hq] at h
          cases h

theorem lays_iff {symbols : SymbolTable} {line : Line} {out out' : Output}
    {here there : Option Place} :
    line.Lays symbols out here out' there ↔
      ∃ entry, (line.effect symbols here).outcome = .ok (there, entry) ∧
        out' = (out.relocateAt here (line.effect symbols here).relocations).enterSome entry := by
  constructor
  · intro h
    cases h with
    | pass _ h =>
      rw [effect_of_not_occupies h]
      refine ⟨none, rfl, ?_⟩
      cases here <;> rfl
    | enter _ k h =>
      unfold effect
      rw [h]
      refine ⟨none, rfl, ?_⟩
      cases here <;> rfl
    | put p q s rs bs hs ho hf hq =>
      rw [effect_of_occupies hs ho]
      dsimp only [Effect.lay]
      rw [hf]
      dsimp only
      rw [hq]
      exact ⟨_, rfl, rfl⟩
  · rintro ⟨entry, he, rfl⟩
    rcases line.statement_cases with hp | ⟨k, hk⟩ | ⟨s, hs, ho⟩
    · rw [effect_of_not_occupies hp] at he ⊢
      cases he
      cases here with
      | none => exact .pass out none hp
      | some p => exact .pass out (some p) hp
    · unfold effect at he ⊢
      rw [hk] at he ⊢
      cases he
      cases here with
      | none => exact .enter out none k hk
      | some p => exact .enter out (some p) k hk
    · rw [effect_of_occupies hs ho] at he ⊢
      cases here with
      | none => cases he
      | some p =>
        dsimp only [Effect.lay] at he ⊢
        cases hf : s.fragment symbols p with
        | mk rs bytes =>
          rw [hf] at he
          cases bytes with
          | error f => cases he
          | ok bs =>
            dsimp only at he
            cases hq : p.advance? bs.length with
            | none =>
              rw [hq] at he
              cases he
            | some q =>
              rw [hq] at he
              cases he
              exact .put out p q s rs bs hs ho hf hq

end Line

/-! ### Many lines -/

namespace Output

/-- Lines without a fault, and the output and the place after them. -/
def Emits (symbols : SymbolTable) (out : Output) (here : Option Place) (lines : List Line)
    (out' : Output) (there : Option Place) : Prop :=
  out.emit symbols here lines = (out', .ok there)

variable {symbols : SymbolTable} {out out' : Output} {here there : Option Place}

theorem emits_nil : out.Emits symbols here [] out' there ↔ out = out' ∧ here = there := by
  unfold Emits emit
  rw [Prod.mk.injEq, Except.ok.injEq]

theorem emits_append {xs ys : List Line} :
    out.Emits symbols here (xs ++ ys) out' there ↔
      ∃ mid m, out.Emits symbols here xs mid m ∧ mid.Emits symbols m ys out' there := by
  unfold Emits
  rw [emit_append]
  generalize out.emit symbols here xs = r
  obtain ⟨mid, m⟩ := r
  cases m with
  | error l => simp
  | ok m => simp

theorem emits_cons {line : Line} {lines : List Line} :
    out.Emits symbols here (line :: lines) out' there ↔
      ∃ mid m, line.Lays symbols out here mid m ∧ mid.Emits symbols m lines out' there := by
  unfold Emits
  rw [emit]
  cases ho : (line.effect symbols here).outcome with
  | error f =>
    constructor
    · intro h
      cases h
    · rintro ⟨mid, m, h, -⟩
      obtain ⟨entry, he, -⟩ := Line.lays_iff.1 h
      rw [ho] at he
      cases he
  | ok r =>
    obtain ⟨m, entry⟩ := r
    constructor
    · intro h
      exact ⟨_, m, Line.lays_iff.2 ⟨entry, ho, rfl⟩, h⟩
    · rintro ⟨mid, m', h, hl⟩
      obtain ⟨entry', he, rfl⟩ := Line.lays_iff.1 h
      rw [ho] at he
      cases he
      exact hl

theorem exists_of_emit_eq_error {lines : List Line} {l : Located}
    (h : out.emit symbols here lines = (out', .error l)) :
    ∃ xs line ys mid m f, lines = xs ++ line :: ys ∧ out.Emits symbols here xs mid m ∧
      (line.effect symbols m).outcome = .error f ∧ l = f.inRow line.row := by
  induction lines generalizing out here with
  | nil => cases h
  | cons line lines ih =>
    rw [emit] at h
    cases ho : (line.effect symbols here).outcome with
    | error f =>
      rw [ho] at h
      cases h
      exact ⟨[], line, lines, out, here, f, rfl, emits_nil.2 ⟨rfl, rfl⟩, ho, rfl⟩
    | ok r =>
      obtain ⟨m, entry⟩ := r
      rw [ho] at h
      obtain ⟨xs, line', ys, mid, m', f, rfl, hx, hf, hl⟩ := ih h
      refine ⟨line :: xs, line', ys, mid, m', f, rfl, ?_, hf, hl⟩
      exact emits_cons.2 ⟨_, m, Line.lays_iff.2 ⟨entry, ho, rfl⟩, hx⟩

end Output

/-! ### Both sweeps -/

namespace Layout

/-- The output holds as many bytes of each section as the layout counts, and none of a section that
has no contents or did not come up. -/
structure InStep (l : Layout) (out : Output) : Prop where
  length : ∀ e ∈ l.extents, e.kind.hasContents → (out.code.get e.kind).length = e.length.toNat
  empty : ∀ k, k ∉ l.extents.map Extent.kind ∨ k.hasContents = false → out.code.get k = []

theorem inStep_start (t : SymbolTable) : (start t).InStep .fresh where
  length e he := by cases he
  empty k _ := by cases k <;> rfl

theorem InStep.length_place {l : Layout} {out : Output} (h : l.InStep out) {p : Place}
    (hp : l.place = some p) (hc : p.kind.hasContents) :
    (out.code.get p.kind).length = p.location.toNat := by
  refine h.length p.extent ?_ hc
  rw [extents_eq, hp]
  exact List.mem_append_right _ (List.mem_singleton.2 rfl)

theorem ne_of_mem_closed {l : Layout} (h : (l.extents.map Extent.kind).Nodup) {p : Place}
    (hp : l.place = some p) {e : Extent} (he : e ∈ l.closed.toList) : e.kind ≠ p.kind := by
  rw [extents_eq, hp, List.map_append, List.nodup_append] at h
  exact h.2.2 e.kind (List.mem_map_of_mem he) p.kind (List.mem_singleton.2 rfl)

theorem InStep.put {l l' : Layout} {out : Output} {p q : Place} {bs : List UInt8} (h : l.InStep out)
    (hnd : (l'.extents.map Extent.kind).Nodup) (hp : l.place = some p)
    (hq : p.advance? bs.length = some q) (hclosed : l'.closed = l.closed)
    (hplace : l'.place = some q) (row : Nat) (rs : List Relocation) :
    l'.InStep (out.put row p rs bs) := by
  obtain ⟨hk, hlen⟩ := Place.advance?_eq_some_iff.1 hq
  have hkinds : l'.extents.map Extent.kind = l.extents.map Extent.kind := by
    rw [extents_eq, extents_eq, hclosed, hplace, hp, List.map_append, List.map_append]
    show _ ++ [q.kind] = _ ++ [p.kind]
    rw [hk]
  refine ⟨?_, ?_⟩
  · intro e he hc
    rw [Output.get_code_put]
    rw [extents_eq, hclosed, hplace, List.mem_append] at he
    rcases he with he | he
    · have hne : e.kind ≠ q.kind := ne_of_mem_closed hnd hplace (hclosed ▸ he)
      rw [if_neg fun hpe => hne (hk.trans hpe.1).symm, List.append_nil]
      refine h.length e ?_ hc
      rw [extents_eq]
      exact List.mem_append_left _ he
    · obtain rfl := List.mem_singleton.1 he
      have hc : p.kind.hasContents := hk ▸ hc
      show (out.code.get q.kind ++ if p.kind = q.kind ∧ p.kind.hasContents then bs else []).length =
        q.location.toNat
      rw [if_pos ⟨hk.symm, hc⟩, hk, List.length_append, h.length_place hp hc, hlen]
  · intro k hk'
    rw [Output.get_code_put, if_neg, List.append_nil]
    · exact h.empty k (hkinds ▸ hk')
    · rintro ⟨rfl, hc⟩
      rcases hk' with hmem | hnone
      · rw [hkinds] at hmem
        exact hmem (mem_kinds_of_place hp)
      · rw [hnone] at hc
        cases hc

theorem InStep.lays {l l' : Layout} {symbols : SymbolTable} {line : Line} {out out' : Output}
    {there : Option Place} (h : l.InStep out) (hnd : (l'.extents.map Extent.kind).Nodup)
    (ht : l.Takes line.located l') (hl : line.Lays symbols out l.place out' there) :
    there = l'.place ∧ l'.InStep out' := by
  have hplace : there = l'.place := by
    rw [ht.place_line]
    exact hl.next_eq.symm
  refine ⟨hplace, ?_⟩
  generalize hhere : l.place = here at hl
  cases hl with
  | pass _ hp =>
    have ho : line.opens? = none := by
      rw [Line.opens?, Option.bind_eq_none_iff]
      exact fun s hs => (hp s hs).2
    have hext : l'.extents = l.extents := by
      rw [extents_eq, extents_eq, ht.closed_line ho, ← hplace, hhere]
    exact ⟨hext ▸ h.length, hext ▸ h.empty⟩
  | enter _ k hs =>
    have ho : line.opens? = some k := by
      rw [Line.opens?, hs]
      rfl
    obtain ⟨hclosed, hstart⟩ := ht.closed_of_opens? ho
    have hext : l'.extents = l.extents ++ [(Place.start k).extent] := by
      rw [extents_eq, hclosed, hstart]
      rfl
    refine ⟨?_, ?_⟩
    · intro e he hc
      rw [hext, List.mem_append] at he
      rcases he with he | he
      · exact h.length e he hc
      · obtain rfl := List.mem_singleton.1 he
        -- a section is opened once, so nothing was laid down in it before
        have hnew : k ∉ l.extents.map Extent.kind := by
          intro hmem
          rw [hext, List.map_append, List.nodup_append] at hnd
          exact hnd.2.2 k hmem k (List.mem_singleton.2 rfl) rfl
        show (out.code.get k).length = 0
        rw [h.empty k (.inl hnew), List.length_nil]
    · intro j hj
      refine h.empty j (hj.imp_left fun hmem hj' => hmem ?_)
      rw [hext, List.map_append]
      exact List.mem_append_left _ hj'
  | put p q s rs bs hs ho hf hq =>
    have ho : line.opens? = none := by
      rw [Line.opens?, hs]
      exact s.opens?_of_occupies ho
    exact h.put hnd hhere hq (ht.closed_line ho) hplace.symm line.row rs

theorem InStep.emits {l l' : Layout} {symbols : SymbolTable} {lines : List Line} {out out' : Output}
    {there : Option Place} (h : l.InStep out) (hnd : (l'.extents.map Extent.kind).Nodup)
    (ht : l.Takes (lines.flatMap Line.located) l')
    (hl : out.Emits symbols l.place lines out' there) : there = l'.place ∧ l'.InStep out' := by
  induction lines generalizing l out with
  | nil =>
    obtain rfl := takes_nil.1 ht
    obtain ⟨rfl, rfl⟩ := Output.emits_nil.1 hl
    exact ⟨rfl, h⟩
  | cons line lines ih =>
    obtain ⟨m, h1, h2⟩ := takes_lines_cons.1 ht
    obtain ⟨mid, here, hline, hrest⟩ := Output.emits_cons.1 hl
    obtain ⟨rfl, hm⟩ := h.lays (h2.nodup_of_lines hnd) h1 hline
    exact ih hm h2 hrest

/-- What holds of no lines and is carried over from the later lines to a line in front of them holds
of all lines, if both sweeps go over them in step. -/
theorem InStep.emits_induction {l l' : Layout} {symbols : SymbolTable}
    {motive : Output → Option Place → List Line → Output → Prop}
    (nil : ∀ out here, motive out here [] out)
    (cons : ∀ (m : Layout) (line : Line) (lines : List Line) (out mid out' : Output)
      (there : Option Place), m.InStep out → line.Lays symbols out m.place mid there →
      motive mid there lines out' → motive out m.place (line :: lines) out')
    {lines : List Line} {out out' : Output} {there : Option Place} (h : l.InStep out)
    (hnd : (l'.extents.map Extent.kind).Nodup) (ht : l.Takes (lines.flatMap Line.located) l')
    (hl : out.Emits symbols l.place lines out' there) : motive out l.place lines out' := by
  induction lines generalizing l out with
  | nil =>
    obtain ⟨rfl, -⟩ := Output.emits_nil.1 hl
    exact nil out l.place
  | cons line lines ih =>
    obtain ⟨m, h1, h2⟩ := takes_lines_cons.1 ht
    obtain ⟨mid, here, hline, hrest⟩ := Output.emits_cons.1 hl
    obtain ⟨rfl, hm⟩ := h.lays (h2.nodup_of_lines hnd) h1 hline
    exact cons l line lines out mid out' m.place h hline (ih hm h2 hrest)

end Layout

namespace Program

/-- What the second sweep over a program reports is a fault in one of its lines, unless the lines
were cut short. -/
theorem exists_of_emit_eq_some {p : Program} {symbols : SymbolTable} {out : Output} {l : Located}
    (hf : p.fault = none) (h : (p.emit symbols out).2 = some l) :
    ∃ out', out.emit symbols none p.lines = (out', .error l) := by
  unfold emit at h
  rw [hf] at h
  generalize out.emit symbols none p.lines = r at h
  obtain ⟨out', _ | there⟩ := r
  · cases h
    exact ⟨out', rfl⟩
  · cases h

theorem assemble_eq_ok_iff {p : Program} {a : Assembly} :
    p.assemble = .ok a ↔
      ∃ l out there, (Layout.start .empty).Takes (p.lines.flatMap Line.located) l ∧
        p.fault = none ∧ Layout.unresolved? l.symbols = none ∧
        Output.fresh.Emits l.symbols none p.lines out there ∧
        a = .ofOutput l.extents l.symbols out := by
  unfold assemble
  dsimp only
  constructor
  · intro h
    cases hs : (p.layout .empty).sections with
    | error l =>
      rw [hs] at h
      cases h
    | ok sections =>
      rw [hs] at h
      obtain ⟨l, ht, hu, rfl, hsymbols⟩ := layout_eq_ok_iff.1 hs
      obtain ⟨ht, hf⟩ := takes_steps_iff.1 ht
      unfold emit at h
      rw [hsymbols] at h
      dsimp only at h
      generalize hr : Output.fresh.emit l.symbols none p.lines = r at h
      obtain ⟨out, _ | there⟩ := r
      · cases h
      · rw [hf] at h
        cases h
        exact ⟨l, out, there, ht, hf, hu, hr, rfl⟩
  · rintro ⟨l, out, there, ht, hf, hu, he, rfl⟩
    rw [layout_of_takes (takes_steps_iff.2 ⟨ht, hf⟩) hu]
    unfold emit
    unfold Output.Emits at he
    dsimp only
    rw [he, hf]
    rfl

end Program

end SS16
