import SS16.Assembly.Layout
import SS16.Proofs.Renaming.Program
import SS16.Proofs.Source.TextFaults

/-!
# SS16.Proofs.Renaming.Steps — other names in what lines ask for

Lines with other names ask for the same steps with other names.  A fault stays one of the same kind:
it may speak of another name, and that is all.  Main statements: `Renaming.parse_operandWord_fault`
and `Renaming.program_steps`.
-/

namespace SS16

/-! ### Faults -/

namespace Operand

def Refuses (token : String) (f : Fault) : Prop :=
  f = .unrecognizedOperand token ∨ f = .literalOverflow token 2

/-- Operands that are refused are no names, and their fault speaks of the whole word. -/
theorem refuses_of_parse {token : String} {f : Fault} (h : parse token = .error f) :
    Refuses token f ∧ Identifier.isValid token = false := by
  constructor
  · exact (fault_of_parse h).symm.imp_right And.left
  · -- a name is read as a register or as itself
    by_contra hv
    rw [Bool.not_eq_false] at hv
    unfold parse at h
    rw [Literal.read?_of_valid hv] at h
    dsimp only at h
    split at h
    · cases h
    · cases h
    · rw [if_pos hv] at h
      cases h

end Operand

namespace Renaming

variable (ρ : Renaming)

/-- The same kind of fault.  The names and labels that it speaks of are other ones. -/
def fault : Fault → Fault
  | .duplicateSymbol n => .duplicateSymbol (ρ.ident n)
  | .missingSymbol n => .missingSymbol (ρ.ident n)
  | .undefinedSymbol n => .undefinedSymbol (ρ.ident n)
  | .outsideSection what => .outsideSection (ρ.labelWord what)
  | .literalOverflow token size => .literalOverflow (ρ.ident token) size
  | f => f

def located (l : Located) : Located := ⟨l.row, ρ.fault l.fault⟩

theorem labelWord_text (k : Keyword) : ρ.labelWord k.text = k.text := by
  unfold labelWord
  rw [k.label?_text]

theorem labelWord_append (n : String) : ρ.labelWord (n ++ ":") = ρ.ident n ++ ":" := by
  unfold labelWord ident
  cases hl : Line.label? (n ++ ":") with
  | some m =>
    obtain ⟨hm, he⟩ := Line.label?_eq_some_iff.1 hl
    obtain rfl := (String.append_left_inj ":").1 he
    rw [if_pos hm]
  | none =>
    have hn : ¬ Identifier.isValid n = true := fun hn => by
      rw [Line.label?_eq_some_iff.2 ⟨hn, rfl⟩] at hl
      cases hl
    rw [if_neg hn]

/-- The faults in the spelling of a statement do not depend on names, so a program is cut short in
the same way. -/
theorem fault_of_ofRows {rows : List String} {first : Nat} {x : Nat × Fault}
    (h : (Program.ofRows rows first).fault = some x) : ρ.fault x.2 = x.2 := by
  have hf := Program.ofStatement_of_ofRows h
  generalize x.2 = f at hf
  cases hf <;> rfl

theorem parse_operandWord_fault (w : String) :
    Operand.parse (ρ.operandWord w) = ((Operand.parse w).map ρ.operand).mapError ρ.fault := by
  rw [ρ.parse_operandWord]
  cases hp : Operand.parse w with
  | ok op => rfl
  | error f =>
    obtain ⟨rfl | rfl, hv⟩ := Operand.refuses_of_parse hp
    · rfl
    · show _ = Except.error (Fault.literalOverflow (ρ.ident w) 2)
      rw [ρ.ident_of_not_isValid hv]
      rfl

/-! ### Steps -/

def step : Step → Step
  | .require what => .require (ρ.labelWord what)
  | .set n => .set (ρ.ident n)
  | .use n => .use (ρ.ident n)
  | .share n => .share (ρ.ident n)
  | .refuse f => .refuse (ρ.fault f)
  | s => s

theorem step_eq_use_iff {s : Step} {n : String} :
    ρ.step s = .use (ρ.ident n) ↔ s = .use n := by
  cases s with
  | use m =>
    show Step.use (ρ.ident m) = _ ↔ _
    rw [Step.use.injEq, Step.use.injEq]
    exact ρ.ident_injective.eq_iff
  | _ => simp [step]

theorem dataStep_ident (w : Width) (arg : String) :
    Statement.dataStep w (ρ.ident arg) = (Statement.dataStep w arg).map ρ.step := by
  unfold Statement.dataStep
  rw [ρ.integer?_ident, ρ.isValid_ident]
  split_ifs with hnumber hv
  · rfl
  · rfl
  · rw [ρ.ident_of_not_isValid (by simpa using hv)]
    rfl

theorem shareStep_ident (n : String) :
    Statement.shareStep (ρ.ident n) = ρ.step (Statement.shareStep n) := by
  unfold Statement.shareStep
  rw [ρ.isValid_ident]
  split_ifs with hv
  · rfl
  · rw [ρ.ident_of_not_isValid (by simpa using hv)]
    rfl

def extra : ExtraWord → ExtraWord
  | .literal l => .literal l
  | .reference kind n => .reference kind (ρ.ident n)

theorem extra?_operand (op : Operand) : (ρ.operand op).extra? = op.extra?.map ρ.extra := by
  cases op with
  | indexed r d => cases d <;> rfl
  | _ => rfl

theorem symbol?_operand (op : Operand) : (ρ.operand op).symbol? = op.symbol?.map ρ.ident := by
  unfold Operand.symbol?
  rw [ρ.extra?_operand]
  cases op.extra? with
  | none => rfl
  | some w => cases w <;> rfl

theorem instructionSize_map (ops : List Operand) :
    Operand.instructionSize (ops.map ρ.operand) = Operand.instructionSize ops := by
  have hextra : Operand.hasExtra ∘ ρ.operand = Operand.hasExtra := by
    funext op
    show (ρ.operand op).extra?.isSome = op.extra?.isSome
    rw [ρ.extra?_operand, Option.isSome_map]
  unfold Operand.instructionSize
  rw [List.any_map, hextra]

theorem operandSteps_map (args : List String) :
    Statement.operandSteps (args.map ρ.operandWord) = (Statement.operandSteps args).map ρ.step := by
  have hsymbols : ∀ ops : List Operand, ((ops.map ρ.operand).filterMap Operand.symbol?).map
      Step.use = ((ops.filterMap Operand.symbol?).map Step.use).map ρ.step := by
    intro ops
    rw [List.filterMap_map, show Operand.symbol? ∘ ρ.operand = fun op => op.symbol?.map ρ.ident from
      funext ρ.symbol?_operand, ← List.map_filterMap, List.map_map, List.map_map]
    rfl
  unfold Statement.operandSteps
  rw [Results.mapM_map ρ.parse_operandWord_fault]
  cases args.mapM Operand.parse with
  | error f => rfl
  | ok ops =>
    show ((ops.map ρ.operand).filterMap Operand.symbol?).map Step.use ++
      [.advance (Operand.instructionSize (ops.map ρ.operand))] = _
    rw [hsymbols, ρ.instructionSize_map, List.map_append]
    rfl

theorem statement_steps (s : Statement) : (ρ.statement s).steps = s.steps.map ρ.step := by
  have hrequire : ∀ k : Keyword, ρ.step (.require k.text) = .require k.text := fun k =>
    congrArg Step.require (ρ.labelWord_text k)
  cases s with
  | data w args =>
    have hargs : (args.map ρ.ident).filterMap (Statement.dataStep w) =
        (args.filterMap (Statement.dataStep w)).map ρ.step := by
      rw [List.filterMap_map, show Statement.dataStep w ∘ ρ.ident =
        fun arg => (Statement.dataStep w arg).map ρ.step from funext (ρ.dataStep_ident w),
        ← List.map_filterMap]
    show Step.require w.name :: ((args.map ρ.ident).filterMap (Statement.dataStep w) ++
      [.advance (Statement.dataSize w (args.map ρ.ident).length).toNat]) =
        (Step.require w.name :: (args.filterMap (Statement.dataStep w) ++
          [.advance (Statement.dataSize w args.length).toNat])).map ρ.step
    rw [hargs, List.length_map, List.map_cons, List.map_append,
      show ρ.step (.require w.name) = .require w.name from hrequire (.data w)]
    rfl
  | skip n =>
    show _ = [ρ.step (.require (Keyword.text .skip)), .advance n.toNat]
    rw [hrequire]
    rfl
  | align n =>
    show _ = [ρ.step (.require (Keyword.text .align)), .align n]
    rw [hrequire]
    rfl
  | global names =>
    show (names.map ρ.ident).map Statement.shareStep = (names.map Statement.shareStep).map ρ.step
    rw [List.map_map, List.map_map]
    exact List.map_congr_left fun n _ => ρ.shareStep_ident n
  | instruction m args =>
    show Step.require m.text :: Statement.operandSteps (args.map ρ.operandWord) =
      ρ.step (.require (Keyword.instruction m).text) :: (Statement.operandSteps args).map ρ.step
    rw [hrequire, ρ.operandSteps_map]
    rfl
  | stop => rfl
  | enter k => rfl

theorem line_steps (line : Line) : (ρ.line line).steps = line.steps.map ρ.step := by
  obtain ⟨row, labels, statement⟩ := line
  have hlabels : (labels.map ρ.ident).map Step.set = (labels.map Step.set).map ρ.step := by
    rw [List.map_map, List.map_map]
    rfl
  show (labels.map ρ.ident).map Step.set ++
    ((statement.map ρ.statement).map Statement.steps).getD [] =
      (labels.map Step.set ++ (statement.map Statement.steps).getD []).map ρ.step
  rw [List.map_append, hlabels]
  cases statement with
  | none => rfl
  | some s => exact congrArg _ (ρ.statement_steps s)

theorem program_steps {p : Program} (hp : ∀ x ∈ p.fault, ρ.fault x.2 = x.2) :
    (ρ.program p).steps = p.steps.map fun x => (x.1, ρ.step x.2) := by
  obtain ⟨lines, fault⟩ := p
  have hlines : (lines.map ρ.line).flatMap (fun line => line.steps.map fun s => (line.row, s)) =
      (lines.flatMap fun line => line.steps.map fun s => (line.row, s)).map
        fun x => (x.1, ρ.step x.2) := by
    rw [List.flatMap_map, List.map_flatMap]
    refine List.flatMap_congr fun line _ => ?_
    rw [ρ.line_steps, List.map_map, List.map_map]
    rfl
  unfold Program.steps Renaming.program
  dsimp only
  rw [List.map_append, hlines]
  cases fault with
  | none => rfl
  | some x =>
    have hx : ρ.fault x.2 = x.2 := hp x rfl
    show _ = _ ++ [(x.1, Step.refuse (ρ.fault x.2))]
    rw [hx]
    rfl

end Renaming

end SS16
