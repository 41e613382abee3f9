import SS16.Proofs.Emission.Elements
import SS16.Proofs.Emission.Sweep
import SS16.Proofs.Layout.Splitting

/-!
# SS16.Proofs.Emission.Splitting — data laid down in two parts

A line of data lays down the relocations and bytes that two lines lay down with its elements between
them, and fails exactly if one of them does; only the listing differs.  Main statements:
`Statement.fragment_data_append`, `Output.Emits.split` and `Output.Emits.joined`.
-/

namespace SS16

namespace BySection

variable {α : Type}

theorem append_append (m : BySection α) (k : Section) (xs ys : List α) :
    (m.append k xs).append k ys = m.append k (xs ++ ys) := by
  refine eq_of_get ?_ fun l => ?_
  · rw [keys_append, if_pos (mem_keys_append m k xs), keys_append, keys_append]
  · rw [get_append, get_append, get_append]
    split_ifs
    · exact List.append_assoc _ _ _
    · rfl

end BySection

/-! ### Outputs up to their listing -/

namespace Output

/-- Two outputs with the same relocations and bytes; their listings may differ. -/
structure SameContents (out o : Output) : Prop where
  relocations : out.relocations = o.relocations
  code : out.code = o.code

variable {out o out' : Output}

theorem sameContents_refl (out : Output) : out.SameContents out := ⟨rfl, rfl⟩

theorem SameContents.symm (h : out.SameContents o) : o.SameContents out :=
  ⟨h.relocations.symm, h.code.symm⟩

theorem SameContents.trans (h : out.SameContents o) (h' : o.SameContents out') :
    out.SameContents out' :=
  ⟨h.relocations.trans h'.relocations, h.code.trans h'.code⟩

theorem SameContents.put (h : out.SameContents o) (row row' : Nat) (p : Place)
    (rs : List Relocation) (bs : List UInt8) :
    (out.put row p rs bs).SameContents (o.put row' p rs bs) where
  relocations := by rw [relocations_put, relocations_put, h.relocations]
  code := by rw [code_put, code_put, h.code]

theorem sameContents_put_put (out : Output) {p q : Place} (hq : q.kind = p.kind)
    (row row₁ row₂ : Nat) (rs qs : List Relocation) (xs ys : List UInt8) :
    (out.put row p (rs ++ qs) (xs ++ ys)).SameContents ((out.put row₁ p rs xs).put row₂ q qs ys) where
  relocations := by
    rw [relocations_put, relocations_put, relocations_put, hq]
    cases rs with
    | nil => rfl
    | cons r rs =>
      cases qs with
      | nil =>
        rw [List.append_nil]
        rfl
      | cons s qs => exact (BySection.append_append _ _ _ _).symm
  code := by
    rw [code_put, code_put, code_put, hq]
    split_ifs
    · exact (BySection.append_append _ _ _ _).symm
    · rfl

end Output

/-! ### Data -/

namespace Statement

theorem length_of_fragment_data {w : Width} {args : List String} {symbols : SymbolTable} {p : Place}
    {rs : List Relocation} {bs : List UInt8}
    (h : (data w args).fragment symbols p = ⟨rs, .ok bs⟩) : bs.length = args.length * w.size := by
  cases puts_of_fragment h with
  | data _ _ _ _ _ h => exact Width.length_of_fragmentsFrom h
  | nothing _ hn => cases hn

theorem fragment_data_append {w : Width} {a b : List String} {p q : Place}
    (hq : p.advance? (a.length * w.size) = some q) (symbols : SymbolTable) :
    (data w (a ++ b)).fragment symbols p =
      ((data w a).fragment symbols p).append ((data w b).fragment symbols q) := by
  unfold Place.advance? at hq
  split_ifs at hq
  obtain rfl := Option.some.inj hq
  by_cases hc : p.kind.hasContents
  · have hparts := w.fragmentsFrom_append symbols p.location a b 0
    rw [fragment_data hc, fragment_data hc, hparts, Nat.zero_add]
    congr 1
    have hshift := w.fragmentsFrom_add symbols p.location b a.length 0
    rw [Nat.add_zero] at hshift
    rw [hshift]
    generalize p.location + UInt16.ofNat (a.length * w.size) = loc
    exact (fragment_data (p := ⟨p.kind, loc⟩) hc w symbols b).symm
  · -- where there are no contents only data without elements is accepted
    unfold fragment
    dsimp only
    rw [Bool.eq_false_iff.2 hc]
    cases a with
    | cons arg a => rfl
    | nil => cases b <;> rfl

end Statement

theorem Line.lays_data_iff {line : Line} {w : Width} {args : List String}
    (hs : line.statement = some (.data w args)) {symbols : SymbolTable} {out out' : Output}
    {here there : Option Place} :
    line.Lays symbols out here out' there ↔
      ∃ p q rs bs, here = some p ∧ there = some q ∧
        (Statement.data w args).fragment symbols p = ⟨rs, .ok bs⟩ ∧
        p.advance? (args.length * w.size) = some q ∧ out' = out.put line.row p rs bs := by
  constructor
  · intro h
    cases h with
    | pass _ hp => cases (hp _ hs).1
    | enter _ k hk => cases hs.symm.trans hk
    | put p q s rs bs hst ho hf hq =>
      obtain rfl := Option.some.inj (hs.symm.trans hst)
      rw [Statement.length_of_fragment_data hf] at hq
      exact ⟨p, q, rs, bs, rfl, rfl, hf, hq, rfl⟩
  · rintro ⟨p, q, rs, bs, rfl, rfl, hf, hq, rfl⟩
    rw [← Statement.length_of_fragment_data hf] at hq
    exact .put out p q _ rs bs hs rfl hf hq

/-! ### Lines -/

section

variable {w : Width} {a b : List String} {line first second : Line} {symbols : SymbolTable}
  {out out' mid o o' : Output} {here m there : Option Place}

theorem Line.Lays.sameContents {line' : Line} (hs : line.statement = line'.statement)
    (hl : line.Lays symbols out here out' there) (hsame : out.SameContents o) :
    ∃ o', line'.Lays symbols o here o' there ∧ out'.SameContents o' := by
  cases hl with
  | pass _ hp => exact ⟨o, .pass o here (hs ▸ hp), hsame⟩
  | enter _ k hk => exact ⟨o, .enter o here k (hs ▸ hk), hsame⟩
  | put p q s rs bs hst ho hf hq =>
    exact ⟨_, .put o p q s rs bs (hs ▸ hst) ho hf hq, hsame.put _ _ p rs bs⟩

theorem Line.Lays.split (hs : line.statement = some (.data w (a ++ b)))
    (h1 : first.statement = some (.data w a)) (h2 : second.statement = some (.data w b))
    (hl : line.Lays symbols out here out' there) (hsame : out.SameContents o) :
    ∃ mid m o', first.Lays symbols o here mid m ∧ second.Lays symbols mid m o' there ∧
      out'.SameContents o' := by
  obtain ⟨p, q, rs, bs, rfl, rfl, hf, hq, rfl⟩ := (lays_data_iff hs).1 hl
  rw [List.length_append, Nat.add_mul, Place.advance?_add, Option.bind_eq_some_iff] at hq
  obtain ⟨r, hr, hq⟩ := hq
  rw [Statement.fragment_data_append hr] at hf
  obtain ⟨rs₁, xs, rs₂, ys, hx, hy, rfl, rfl⟩ := Fragment.append_eq_ok.1 hf
  exact ⟨_, some r, _, (lays_data_iff h1).2 ⟨p, r, rs₁, xs, rfl, rfl, hx, hr, rfl⟩,
    (lays_data_iff h2).2 ⟨r, q, rs₂, ys, rfl, rfl, hy, hq, rfl⟩,
    (hsame.put _ line.row p _ _).trans
      (o.sameContents_put_put (Place.kind_of_advance? hr) _ _ _ _ _ _ _)⟩

theorem Line.Lays.joined (hs : line.statement = some (.data w (a ++ b)))
    (h1 : first.statement = some (.data w a)) (h2 : second.statement = some (.data w b))
    (hl1 : first.Lays symbols out here mid m) (hl2 : second.Lays symbols mid m out' there)
    (hsame : out.SameContents o) :
    ∃ o', line.Lays symbols o here o' there ∧ out'.SameContents o' := by
  obtain ⟨p, r, rs₁, xs, rfl, rfl, hx, hr, rfl⟩ := (lays_data_iff h1).1 hl1
  obtain ⟨_, q, rs₂, ys, hr', rfl, hy, hq, rfl⟩ := (lays_data_iff h2).1 hl2
  obtain rfl := Option.some.inj hr'
  have hf : (Statement.data w (a ++ b)).fragment symbols p = ⟨rs₁ ++ rs₂, .ok (xs ++ ys)⟩ := by
    rw [Statement.fragment_data_append hr]
    exact Fragment.append_eq_ok.2 ⟨_, _, _, _, hx, hy, rfl, rfl⟩
  have hpq : p.advance? ((a ++ b).length * w.size) = some q := by
    rw [List.length_append, Nat.add_mul, Place.advance?_add, hr]
    exact hq
  exact ⟨_, (lays_data_iff hs).2 ⟨p, q, _, _, rfl, rfl, hf, hpq, rfl⟩,
    (out.sameContents_put_put (Place.kind_of_advance? hr) line.row _ _ _ _ _ _).symm.trans
      (hsame.put _ _ p _ _)⟩

/-- A line of data that is laid down is shorter than a section can be. -/
theorem Line.Lays.size_lt {args : List String} (hs : line.statement = some (.data w args))
    (hl : line.Lays symbols out here out' there) : args.length * w.size < UInt16.size := by
  obtain ⟨p, q, -, -, -, -, -, hq, -⟩ := (lays_data_iff hs).1 hl
  have hlt : q.location.toNat < UInt16.size := q.location.toNat_lt
  rw [(Place.advance?_eq_some_iff.1 hq).2] at hlt
  exact Nat.lt_of_le_of_lt (Nat.le_add_left _ _) hlt

namespace Output

theorem Emits.sameContents {lines lines' : List Line}
    (hs : lines.map Line.statement = lines'.map Line.statement)
    (he : out.Emits symbols here lines out' there) (hsame : out.SameContents o) :
    ∃ o', o.Emits symbols here lines' o' there ∧ out'.SameContents o' := by
  induction lines generalizing lines' out o here with
  | nil =>
    obtain ⟨rfl, rfl⟩ := emits_nil.1 he
    obtain rfl := List.map_eq_nil_iff.1 hs.symm
    exact ⟨o, emits_nil.2 ⟨rfl, rfl⟩, hsame⟩
  | cons line lines ih =>
    obtain ⟨line', lines', rfl, hline, hrest⟩ := List.map_eq_cons_iff.1 hs.symm
    obtain ⟨mid, m, h1, h2⟩ := emits_cons.1 he
    obtain ⟨mid', h1', hmid⟩ := h1.sameContents hline.symm hsame
    obtain ⟨o', h2', ho'⟩ := ih hrest.symm h2 hmid
    exact ⟨o', emits_cons.2 ⟨mid', m, h1', h2'⟩, ho'⟩

variable {ls ms ls' ms' : List Line}

theorem Emits.split (hs : line.statement = some (.data w (a ++ b)))
    (h1 : first.statement = some (.data w a)) (h2 : second.statement = some (.data w b))
    (hls : ls.map Line.statement = ls'.map Line.statement)
    (hms : ms.map Line.statement = ms'.map Line.statement)
    (he : out.Emits symbols here (ls ++ line :: ms) out' there) (hsame : out.SameContents o) :
    (a ++ b).length * w.size < UInt16.size ∧
      ∃ o', o.Emits symbols here (ls' ++ first :: second :: ms') o' there ∧
        out'.SameContents o' := by
  obtain ⟨x, hx, he, hrest⟩ := emits_append.1 he
  obtain ⟨y, hy, hl, hrest⟩ := emits_cons.1 hrest
  obtain ⟨x', he', hx'⟩ := he.sameContents hls hsame
  obtain ⟨z, hz, y', hl1, hl2, hy'⟩ := hl.split hs h1 h2 hx'
  obtain ⟨o', hrest', ho'⟩ := hrest.sameContents hms hy'
  exact ⟨hl.size_lt hs, o', emits_append.2 ⟨x', hx, he',
    emits_cons.2 ⟨z, hz, hl1, emits_cons.2 ⟨y', hy, hl2, hrest'⟩⟩⟩, ho'⟩

theorem Emits.joined (hs : line.statement = some (.data w (a ++ b)))
    (h1 : first.statement = some (.data w a)) (h2 : second.statement = some (.data w b))
    (hls : ls.map Line.statement = ls'.map Line.statement)
    (hms : ms.map Line.statement = ms'.map Line.statement)
    (he : out.Emits symbols here (ls ++ first :: second :: ms) out' there)
    (hsame : out.SameContents o) :
    (a ++ b).length * w.size < UInt16.size ∧
      ∃ o', o.Emits symbols here (ls' ++ line :: ms') o' there ∧ out'.SameContents o' := by
  obtain ⟨x, hx, he, hrest⟩ := emits_append.1 he
  obtain ⟨z, hz, hl1, hrest⟩ := emits_cons.1 hrest
  obtain ⟨y, hy, hl2, hrest⟩ := emits_cons.1 hrest
  obtain ⟨x', he', hx'⟩ := he.sameContents hls hsame
  obtain ⟨y', hl, hy'⟩ := hl1.joined hs h1 h2 hl2 hx'
  obtain ⟨o', hrest', ho'⟩ := hrest.sameContents hms hy'
  exact ⟨hl.size_lt hs, o', emits_append.2 ⟨x', hx, he', emits_cons.2 ⟨y', hy, hl, hrest'⟩⟩, ho'⟩

end Output

end

end SS16
