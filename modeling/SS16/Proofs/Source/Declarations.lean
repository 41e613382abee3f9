import SS16.Proofs.Source.Names

/-!
# SS16.Proofs.Source.Declarations — what lines declare and use

The names that a line sets, uses and exports are read off its text, without a layout.  A line whose
arguments can all be read asks for steps of four kinds in a fixed order.  Main statements:
`Program.ofRows_eq_iff` (the lines of a source), `Line.steps_eq` (the steps of a line) and
`Line.readable_iff`.
-/

namespace SS16

/-! ### Rows -/

/-- Rows counted from a number on read as lines: each of them is a line, up to the first one that
ends the source. -/
inductive Reads : Nat → List String → List Line → Prop
  | nil (row : Nat) : Reads row [] []
  | stop {row : Nat} {raw : String} {line : Line} (rows : List String)
    (h : Line.parse row raw = .ok line) (hs : line.statement = some .stop) :
    Reads row (raw :: rows) [line]
  | cons {row : Nat} {raw : String} {line : Line} {rows : List String} {lines : List Line}
    (h : Line.parse row raw = .ok line) (hs : line.statement ≠ some .stop)
    (rest : Reads (row + 1) rows lines) : Reads row (raw :: rows) (line :: lines)

namespace Program

theorem ofRows_eq_iff {rows : List String} {row : Nat} {lines : List Line} :
    ofRows rows row = ⟨lines, none⟩ ↔ Reads row rows lines := by
  induction rows generalizing row lines with
  | nil =>
    constructor
    · intro h
      obtain ⟨rfl, -⟩ := Program.mk.inj h
      exact .nil row
    · intro h
      cases h
      rfl
  | cons raw rows ih =>
    rw [ofRows_cons]
    unfold prepend
    cases hp : Line.parse row raw with
    | error f =>
      constructor
      · intro h
        cases h
      · intro h
        cases h with
        | stop _ h => rw [hp] at h; cases h
        | cons h => rw [hp] at h; cases h
    | ok line =>
      dsimp only
      by_cases hs : line.statement = some .stop
      · rw [if_pos hs]
        constructor
        · intro h
          obtain ⟨rfl, -⟩ := Program.mk.inj h
          exact .stop rows hp hs
        · intro h
          cases h with
          | stop _ h _ => rw [hp] at h; cases h; rfl
          | cons h hne => rw [hp] at h; cases h; exact absurd hs hne
      · rw [if_neg hs]
        constructor
        · intro h
          obtain ⟨rfl, hf⟩ := Program.mk.inj h
          refine .cons hp hs (ih.1 ?_)
          rw [← hf]
        · intro h
          cases h with
          | stop _ h hstop => rw [hp] at h; cases h; exact absurd hstop hs
          | cons h _ rest => rw [hp] at h; cases h; rw [ih.2 rest]

theorem reads_of_fault {source : String} (h : (ofSource source).fault = none) :
    Reads 0 (Text.rows source) (ofSource source).lines := by
  refine ofRows_eq_iff.1 ?_
  rw [← h]
  rfl

end Program

/-! ### Statements -/

namespace Statement

def operands (args : List String) : List Operand :=
  args.filterMap fun arg => (Operand.parse arg).toOption

def uses : Statement → List String
  | data _ args => args.filter fun arg => (Numeral.integer? arg).isNone
  | instruction _ args => (operands args).flatMap Operand.named
  | stop | enter _ | skip _ | align _ | global _ => []

def exports : Statement → List String
  | global names => names
  | stop | enter _ | data _ _ | skip _ | align _ | instruction _ _ => []

def Readable : Statement → Prop
  | data _ args => ∀ arg ∈ args, (Numeral.integer? arg).isSome ∨ Identifier.isValid arg
  | global names => ∀ n ∈ names, Identifier.isValid n
  | instruction _ args => ∀ arg ∈ args, ∃ op, Operand.parse arg = .ok op
  | stop | enter _ | skip _ | align _ => True

/-- The step by which a statement moves the place, if it does. -/
def motion : Statement → Option Step
  | enter k => some (.enter k)
  | data w args => some (.advance (dataSize w args.length).toNat)
  | skip n => some (.advance n.toNat)
  | align n => some (.align n)
  | instruction _ args => some (.advance (Operand.instructionSize (operands args)))
  | stop | global _ => none

/-- The steps of a statement before it moves the place. -/
def still (s : Statement) : List Step :=
  (if s.occupies then [.require s.heading] else []) ++ s.uses.map .use ++ s.exports.map .share

theorem mapM_parse_of_readable {args : List String}
    (h : ∀ arg ∈ args, ∃ op, Operand.parse arg = .ok op) :
    args.mapM Operand.parse = .ok (operands args) := by
  rw [Results.mapM_eq_ok_iff]
  unfold operands
  induction args with
  | nil => exact .nil
  | cons arg args ih =>
    obtain ⟨op, hop⟩ := h arg List.mem_cons_self
    have hsome : (Operand.parse arg).toOption = some op := by rw [hop]; rfl
    rw [List.filterMap_cons_some (f := fun arg => (Operand.parse arg).toOption) hsome]
    exact .cons hop (ih fun a ha => h a (List.mem_cons_of_mem arg ha))

theorem dataSteps_of_readable (w : Width) {args : List String}
    (h : ∀ arg ∈ args, (Numeral.integer? arg).isSome ∨ Identifier.isValid arg) :
    args.filterMap (dataStep w) =
      (args.filter fun arg => (Numeral.integer? arg).isNone).map .use := by
  rw [← List.filterMap_eq_map', List.filterMap_filter]
  refine List.filterMap_congr fun arg ha => ?_
  unfold dataStep
  cases hn : Numeral.integer? arg with
  | some v => simp
  | none =>
    have hv : Identifier.isValid arg := (h arg ha).resolve_left (by simp [hn])
    simp [hv]

/-- A statement whose arguments can be read needs a section if it takes part in one, uses and exports
its names, and moves on. -/
theorem steps_eq {s : Statement} (h : s.Readable) : s.steps = s.still ++ s.motion.toList := by
  cases s with
  | data w args =>
    show Step.require w.name :: (args.filterMap (dataStep w) ++ _) = _
    rw [dataSteps_of_readable w h]
    simp [still, motion, occupies, uses, exports, heading, Keyword.text]
  | instruction m args =>
    show Step.require m.text :: operandSteps args = _
    unfold operandSteps
    rw [mapM_parse_of_readable h]
    simp [still, motion, occupies, uses, exports, heading, Keyword.text, Operand.filterMap_symbol?]
  | global names =>
    have hshare : names.map shareStep = names.map .share := by
      refine List.map_congr_left fun n hn => ?_
      unfold shareStep
      rw [if_pos (h n hn)]
    show names.map shareStep = _
    rw [hshare]
    simp [still, motion, occupies, uses, exports]
  | stop | enter k | skip n | align n => rfl

theorem exists_refuse_of_not_readable {s : Statement} (h : ¬ s.Readable) :
    ∃ f, Step.refuse f ∈ s.steps := by
  cases s with
  | data w args =>
    simp only [Readable, not_forall, not_or] at h
    obtain ⟨arg, ha, hn, hv⟩ := h
    refine ⟨.invalidArgument w.name arg, List.mem_cons_of_mem _ (List.mem_append_left _ ?_)⟩
    refine List.mem_filterMap.2 ⟨arg, ha, ?_⟩
    rw [dataStep, if_neg hn, if_neg hv]
  | global names =>
    simp only [Readable, not_forall] at h
    obtain ⟨n, hn, hv⟩ := h
    exact ⟨_, List.mem_map.2 ⟨n, hn, if_neg hv⟩⟩
  | instruction m args =>
    have hsteps : (instruction m args).steps = .require m.text :: operandSteps args := rfl
    rw [hsteps]
    unfold operandSteps
    cases hops : args.mapM Operand.parse with
    | error f => exact ⟨f, List.mem_cons_of_mem _ List.mem_cons_self⟩
    | ok ops =>
      refine absurd (fun arg ha => ?_) h
      obtain ⟨op, -, hop⟩ := Results.exists_of_mem_forall₂ (Results.mapM_eq_ok_iff.1 hops).flip ha
      exact ⟨op, hop⟩
  | stop | enter k | skip n | align n => exact absurd trivial h

end Statement

/-! ### Lines -/

namespace Line

def uses (line : Line) : List String := (line.statement.map Statement.uses).getD []

def exports (line : Line) : List String := (line.statement.map Statement.exports).getD []

/-- The names that a line sets, uses or exports. -/
def names (line : Line) : List String := line.labels ++ line.uses ++ line.exports

def Readable (line : Line) : Prop := ∀ s, line.statement = some s → s.Readable

def occupies (line : Line) : Bool := line.statement.any Statement.occupies

def motion (line : Line) : Option Step := line.statement.bind Statement.motion

def still (line : Line) : List Step :=
  line.labels.map .set ++ (line.statement.map Statement.still).getD []

theorem steps_eq {line : Line} (h : line.Readable) :
    line.steps = line.still ++ line.motion.toList := by
  unfold steps still motion
  cases hs : line.statement with
  | none => simp
  | some s => simp [Statement.steps_eq (h s hs)]

/-- The steps of a line that leave the place as it is. -/
inductive Stays (line : Line) : Step → Prop
  | set (n : String) (h : n ∈ line.labels) : Stays line (.set n)
  | require (what : String) (h : line.occupies) : Stays line (.require what)
  | use (n : String) (h : n ∈ line.uses) : Stays line (.use n)
  | share (n : String) (h : n ∈ line.exports) : Stays line (.share n)

theorem stays_of_mem_still {line : Line} {t : Step} (h : t ∈ line.still) : line.Stays t := by
  rcases List.mem_append.1 h with h | h
  · obtain ⟨n, hn, rfl⟩ := List.mem_map.1 h
    exact .set n hn
  · cases hs : line.statement with
    | none => simp [hs] at h
    | some s =>
      rw [hs] at h
      rcases List.mem_append.1 h with h | h
      · rcases List.mem_append.1 h with h | h
        · split_ifs at h with ho
          · obtain rfl := List.mem_singleton.1 h
            exact .require _ (by simp [occupies, hs, ho])
          · cases h
        · obtain ⟨n, hn, rfl⟩ := List.mem_map.1 h
          exact .use n (by simpa [uses, hs] using hn)
      · obtain ⟨n, hn, rfl⟩ := List.mem_map.1 h
        exact .share n (by simpa [exports, hs] using hn)

/-- The steps that move the place. -/
inductive Moves (line : Line) : Step → Prop
  | enter (k : Section) (h : line.statement = some (.enter k)) : Moves line (.enter k)
  | advance (n : Nat) (h : line.occupies) : Moves line (.advance n)
  | align (n : UInt16) (h : line.occupies) : Moves line (.align n)

theorem moves_of_motion {line : Line} {t : Step} (h : line.motion = some t) : line.Moves t := by
  obtain ⟨s, hs, h⟩ := Option.bind_eq_some_iff.1 h
  cases s with
  | enter k =>
    obtain rfl := Option.some.inj h
    exact .enter k hs
  | align n =>
    obtain rfl := Option.some.inj h
    exact .align n (by simp [occupies, hs, Statement.occupies])
  | data w args | skip n | instruction m args =>
    obtain rfl := Option.some.inj h
    exact .advance _ (by simp [occupies, hs, Statement.occupies])
  | stop | global names => cases h

theorem readable_iff {line : Line} : line.Readable ↔ ∀ s ∈ line.steps, ∀ f, s ≠ .refuse f := by
  constructor
  · rintro h s hs f rfl
    rw [steps_eq h, List.mem_append, Option.mem_toList] at hs
    rcases hs with hs | hs
    · cases stays_of_mem_still hs
    · cases moves_of_motion hs
  · intro h s hs
    by_contra hn
    obtain ⟨f, hf⟩ := Statement.exists_refuse_of_not_readable hn
    refine h _ ?_ f rfl
    unfold steps
    rw [hs]
    exact List.mem_append_right _ hf

theorem mem_set_steps {line : Line} (h : line.Readable) {n : String} :
    Step.set n ∈ line.steps ↔ n ∈ line.labels := by
  constructor
  · intro hn
    rw [steps_eq h, List.mem_append, Option.mem_toList] at hn
    rcases hn with hn | hn
    · cases stays_of_mem_still hn with
      | set _ h => exact h
    · cases moves_of_motion hn
  · intro hn
    exact List.mem_append_left _ (List.mem_map_of_mem hn)

theorem mem_use_steps {line : Line} (h : line.Readable) {n : String} :
    Step.use n ∈ line.steps ↔ n ∈ line.uses := by
  rw [steps_eq h, List.mem_append, Option.mem_toList]
  constructor
  · rintro (hn | hn)
    · cases stays_of_mem_still hn with
      | use _ h => exact h
    · cases moves_of_motion hn
  · intro hn
    refine .inl (List.mem_append_right _ ?_)
    unfold uses at hn
    cases hs : line.statement with
    | none => simp [hs] at hn
    | some s =>
      rw [hs] at hn
      exact List.mem_append_left _ (List.mem_append_right _ (List.mem_map_of_mem hn))

theorem mem_share_steps {line : Line} (h : line.Readable) {n : String} :
    Step.share n ∈ line.steps ↔ n ∈ line.exports := by
  rw [steps_eq h, List.mem_append, Option.mem_toList]
  constructor
  · rintro (hn | hn)
    · cases stays_of_mem_still hn with
      | share _ h => exact h
    · cases moves_of_motion hn
  · intro hn
    refine .inl (List.mem_append_right _ ?_)
    unfold exports at hn
    cases hs : line.statement with
    | none => simp [hs] at hn
    | some s =>
      rw [hs] at hn
      exact List.mem_append_right _ (List.mem_map_of_mem hn)

theorem mem_names_iff {line : Line} (h : line.Readable) {n : String} :
    n ∈ line.steps.filterMap Step.name? ↔ n ∈ line.names := by
  unfold names
  rw [List.mem_append, List.mem_append, ← mem_set_steps h, ← mem_use_steps h, ← mem_share_steps h,
    List.mem_filterMap]
  constructor
  · rintro ⟨s, hs, hn⟩
    cases s with
    | set m => exact .inl (.inl (Option.some.inj hn ▸ hs))
    | use m => exact .inl (.inr (Option.some.inj hn ▸ hs))
    | share m => exact .inr (Option.some.inj hn ▸ hs)
    | _ => cases hn
  · rintro ((hs | hs) | hs)
    · exact ⟨_, hs, rfl⟩
    · exact ⟨_, hs, rfl⟩
    · exact ⟨_, hs, rfl⟩

end Line

end SS16
