import SS16.Proofs.Layout.Program

/-!
# SS16.Proofs.Layout.Checks — what the first sweep has checked of a statement

A statement whose steps are all taken stands in a section, its operands can be read, its names have
entries and its bytes fit.  Main statement: `Layout.Takes.checked`.
-/

namespace SS16

/-- What the first sweep has checked of a statement at a place, given the symbols it found. -/
def Statement.Checked (symbols : SymbolTable) (p : Place) : Statement → Prop
  | data w args =>
    (∀ arg ∈ args, Numeral.integer? arg = none → symbols.contains arg) ∧
      (p.advance? (dataSize w args.length).toNat).isSome
  | skip n => (p.advance? n.toNat).isSome
  | align n => (p.align? n).isSome
  | instruction _ args =>
    ∃ ops, args.mapM Operand.parse = .ok ops ∧
      (∀ op ∈ ops, ∀ n, op.symbol? = some n → symbols.contains n) ∧
      (p.advance? (Operand.instructionSize ops)).isSome
  | stop | enter _ | global _ => True

namespace Statement

theorem Checked.grows {s : Statement} {t u : SymbolTable} {p : Place} (h : s.Checked t p)
    (hg : t.Grows u) : s.Checked u p := by
  cases s with
  | data w args => exact ⟨fun arg ha hn => hg.contains (h.1 arg ha hn), h.2⟩
  | instruction m args =>
    obtain ⟨ops, hops, hsym, hfit⟩ := h
    exact ⟨ops, hops, fun op hop n hn => hg.contains (hsym op hop n hn), hfit⟩
  | _ => exact h

theorem exists_require_of_occupies {s : Statement} (h : s.occupies) :
    ∃ what rest, s.steps = .require what :: rest := by
  cases s with
  | data w args => exact ⟨_, _, rfl⟩
  | skip n => exact ⟨_, _, rfl⟩
  | align n => exact ⟨_, _, rfl⟩
  | instruction m args => exact ⟨_, _, rfl⟩
  | _ => cases h

end Statement

namespace Layout

theorem Takes.ne_refuse {l l' : Layout} {xs : List (Nat × Step)} (h : l.Takes xs l')
    {x : Nat × Step} (hx : x ∈ xs) (f : Fault) : x.2 ≠ .refuse f := by
  intro hf
  obtain ⟨as, bs, rfl⟩ := List.append_of_mem hx
  obtain ⟨m, -, h⟩ := takes_append.1 h
  obtain ⟨hr, -⟩ := takes_cons.1 h
  rw [hf] at hr
  cases hr

theorem Takes.last {l l' : Layout} {xs : List Step} {row : Nat} {s : Step}
    (h : l.Takes ((xs ++ [s]).map (row, ·)) l') (hx : ∀ t ∈ xs, ∀ here, t.next here = here) :
    ∃ m : Layout, m.place = l.place ∧ m.refusal? s = none := by
  rw [List.map_append] at h
  obtain ⟨m, h1, h2⟩ := takes_append.1 h
  exact ⟨m, h1.place_eq_self hx, (takes_singleton.1 h2).1⟩

theorem isSome_of_moveRefusal? {l : Layout} {f : Place → Option Place} {p : Place}
    (hp : l.place = some p) (h : l.moveRefusal? f = none) : (f p).isSome := by
  unfold moveRefusal? at h
  rw [hp] at h
  by_contra hf
  simp [hf] at h

theorem Takes.of_statement {l l' : Layout} {line : Line} {s : Statement}
    (h : l.Takes line.located l') (hs : line.statement = some s) :
    ∃ m : Layout, m.place = l.place ∧ m.Takes (s.steps.map (line.row, ·)) l' := by
  obtain ⟨m, -, h2, hplace, -⟩ := h.split_labels
  rw [hs] at h2
  exact ⟨m, hplace, h2⟩

theorem checked_data {l l' : Layout} {row : Nat} {w : Width} {args : List String} {p : Place}
    (hp : l.place = some p) (h : l.Takes ((Statement.data w args).steps.map (row, ·)) l') :
    (Statement.data w args).Checked l'.symbols p := by
  refine ⟨fun arg ha hn => ?_, ?_⟩
  · -- the argument is no number, so its step uses it or is refused
    have hstep : ∀ t, Statement.dataStep w arg = some t →
        (row, t) ∈ (Statement.data w args).steps.map (row, ·) := by
      intro t ht
      refine List.mem_map.2 ⟨t, ?_, rfl⟩
      refine List.mem_cons_of_mem _ (List.mem_append_left _ ?_)
      exact List.mem_filterMap.2 ⟨arg, ha, ht⟩
    by_cases hv : Identifier.isValid arg
    · have hmem := hstep (.use arg) (by simp [Statement.dataStep, hn, hv])
      exact h.contains hmem rfl
    · have hmem := hstep (.refuse (.invalidArgument w.name arg))
        (by simp [Statement.dataStep, hn, hv])
      exact absurd rfl (h.ne_refuse hmem _)
  · have hlast : l.Takes ((Step.require w.name :: args.filterMap (Statement.dataStep w) ++
        [Step.advance (Statement.dataSize w args.length).toNat]).map (row, ·)) l' := h
    obtain ⟨m, hm, hr⟩ := hlast.last fun t ht here => by
      rcases List.mem_cons.1 ht with rfl | ht
      · rfl
      · exact Statement.next_of_mem_dataSteps ht here
    exact isSome_of_moveRefusal? (hm.trans hp) hr

theorem checked_instruction {l l' : Layout} {row : Nat} {m : Mnemonic} {args : List String}
    {p : Place} (hp : l.place = some p)
    (h : l.Takes ((Statement.instruction m args).steps.map (row, ·)) l') :
    (Statement.instruction m args).Checked l'.symbols p := by
  have hsteps : (Statement.instruction m args).steps =
      .require m.text :: Statement.operandSteps args := rfl
  cases hops : args.mapM Operand.parse with
  | error f =>
    rw [Statement.operandSteps, hops] at hsteps
    have hmem : (row, Step.refuse f) ∈ (Statement.instruction m args).steps.map (row, ·) := by
      rw [hsteps]
      simp
    exact absurd rfl (h.ne_refuse hmem f)
  | ok ops =>
    rw [Statement.operandSteps, hops] at hsteps
    refine ⟨ops, hops, fun op hop n hn => ?_, ?_⟩
    · have hmem : (row, Step.use n) ∈ (Statement.instruction m args).steps.map (row, ·) := by
        rw [hsteps]
        refine List.mem_map.2 ⟨_, List.mem_cons_of_mem _ (List.mem_append_left _ ?_), rfl⟩
        exact List.mem_map.2 ⟨n, List.mem_filterMap.2 ⟨op, hop, hn⟩, rfl⟩
      exact h.contains hmem rfl
    · rw [hsteps] at h
      have hlast : l.Takes ((Step.require m.text :: (ops.filterMap Operand.symbol?).map Step.use ++
          [Step.advance (Operand.instructionSize ops)]).map (row, ·)) l' := h
      obtain ⟨m', hm, hr⟩ := hlast.last fun t ht here => by
        rcases List.mem_cons.1 ht with rfl | ht
        · rfl
        · obtain ⟨n, -, rfl⟩ := List.mem_map.1 ht
          rfl
      exact isSome_of_moveRefusal? (hm.trans hp) hr

/-- A statement whose steps are taken stands in a section and has been checked there. -/
theorem Takes.checked {l l' : Layout} {line : Line} {s : Statement} (h : l.Takes line.located l')
    (hs : line.statement = some s) (ho : s.occupies) :
    ∃ p, l.place = some p ∧ s.Checked l'.symbols p := by
  obtain ⟨m, hplace, h⟩ := h.of_statement hs
  obtain ⟨what, rest, hsteps⟩ := Statement.exists_require_of_occupies ho
  have hopen : m.refusal? (.require what) = none := by
    rw [hsteps] at h
    exact (takes_cons.1 h).1
  cases hp : m.place with
  | none => simp [refusal?, hp] at hopen
  | some p =>
    refine ⟨p, hplace.symm.trans hp, ?_⟩
    cases s with
    | data w args => exact checked_data hp h
    | instruction c args => exact checked_instruction hp h
    | skip n =>
      obtain ⟨-, h⟩ := takes_cons.1 h
      exact isSome_of_moveRefusal? hp (takes_singleton.1 h).1
    | align n =>
      obtain ⟨-, h⟩ := takes_cons.1 h
      exact isSome_of_moveRefusal? hp (takes_singleton.1 h).1
    | _ => exact trivial

end Layout

end SS16
