import SS16.Assembly
import SS16.Proofs.OperandGrammar

/-!
# SS16.Proofs.Source.Names — the names that a source brings up

Whatever a line sets, uses or shares is a name, and no section is called by one.  So the entries of
names and those of sections never get into each other's way.  Main statements:
`Line.label?_eq_some_iff`, `Line.isValid_of_mem_steps` and `Section.isValid_name`.
-/

namespace SS16

theorem Section.isValid_name (k : Section) : Identifier.isValid k.name = false := by
  cases k <;> decide

/-! ### Steps -/

def Step.name? : Step → Option String
  | .set n | .use n | .share n => some n
  | .require _ | .enter _ | .advance _ | .align _ | .refuse _ => none

namespace Statement

/-- The steps that a statement can ask for. -/
inductive Asks (s : Statement) : Step → Prop
  | enter (k : Section) (hs : s = .enter k) : Asks s (.enter k)
  | require (what : String) : Asks s (.require what)
  | use (n : String) (h : Identifier.isValid n) : Asks s (.use n)
  | share (n : String) (h : Identifier.isValid n) : Asks s (.share n)
  | advance (n : Nat) : Asks s (.advance n)
  | align (n : UInt16) : Asks s (.align n)
  | refuse (f : Fault) : Asks s (.refuse f)

theorem asks_of_dataStep {s : Statement} {w : Width} {arg : String} {t : Step}
    (h : dataStep w arg = some t) : s.Asks t := by
  unfold dataStep at h
  split at h
  · cases h
  · split at h
    · cases h
      exact .use arg ‹_›
    · cases h
      exact .refuse _

theorem asks_shareStep (s : Statement) (arg : String) : s.Asks (shareStep arg) := by
  unfold shareStep
  split
  · exact .share arg ‹_›
  · exact .refuse _

theorem asks_of_mem_operandSteps {s : Statement} {args : List String} {t : Step}
    (ht : t ∈ operandSteps args) : s.Asks t := by
  unfold operandSteps at ht
  split at ht
  · obtain rfl := List.mem_singleton.1 ht
    exact .refuse _
  · rename_i ops hops
    rcases List.mem_append.1 ht with ht | ht
    · obtain ⟨n, hn, rfl⟩ := List.mem_map.1 ht
      obtain ⟨op, hop, hn⟩ := List.mem_filterMap.1 hn
      obtain ⟨arg, -, harg⟩ := Results.exists_of_mem_mapM hops hop
      exact .use n (Operand.isValid_of_parse harg hn)
    · obtain rfl := List.mem_singleton.1 ht
      exact .advance _

theorem asks_of_mem_steps {s : Statement} {t : Step} (ht : t ∈ s.steps) : s.Asks t := by
  cases s with
  | stop => cases ht
  | enter k =>
    obtain rfl := List.mem_singleton.1 ht
    exact .enter k rfl
  | data w args =>
    simp only [steps, List.mem_cons, List.mem_append, List.mem_filterMap, List.not_mem_nil,
      or_false] at ht
    rcases ht with rfl | ⟨arg, -, harg⟩ | rfl
    · exact .require _
    · exact asks_of_dataStep harg
    · exact .advance _
  | skip k =>
    simp only [steps, List.mem_cons, List.not_mem_nil, or_false] at ht
    rcases ht with rfl | rfl
    · exact .require _
    · exact .advance _
  | align k =>
    simp only [steps, List.mem_cons, List.not_mem_nil, or_false] at ht
    rcases ht with rfl | rfl
    · exact .require _
    · exact .align k
  | global names =>
    obtain ⟨n, -, rfl⟩ := List.mem_map.1 ht
    exact asks_shareStep _ n
  | instruction m args =>
    rcases List.mem_cons.1 ht with rfl | ht
    · exact .require _
    · exact asks_of_mem_operandSteps ht

theorem isValid_of_mem_steps {s : Statement} {t : Step} {n : String} (ht : t ∈ s.steps)
    (hn : t.name? = some n) : Identifier.isValid n := by
  cases asks_of_mem_steps ht with
  | use m h =>
    obtain rfl : m = n := Option.some.inj hn
    exact h
  | share m h =>
    obtain rfl : m = n := Option.some.inj hn
    exact h
  | _ => cases hn

end Statement

/-! ### Lines and programs -/

namespace Line

theorem label?_eq_some_iff {w n : String} :
    label? w = some n ↔ Identifier.isValid n ∧ w = n ++ ":" := by
  have hcolon : (n ++ ":").toList = n.toList ++ [':'] := String.toList_append
  unfold label? Identifier.isValid
  dsimp only
  constructor
  · intro h
    split_ifs at h with hw
    obtain rfl := Option.some.inj h
    obtain ⟨cs, hcs⟩ := List.getLast?_eq_some_iff.1 hw.1
    rw [hcs, List.dropLast_concat] at hw hcolon ⊢
    rw [String.toList_ofList] at hcolon ⊢
    exact ⟨hw.2, String.toList_inj.1 (hcs.trans hcolon.symm)⟩
  · rintro ⟨hn, rfl⟩
    rw [hcolon, List.getLast?_concat, List.dropLast_concat, if_pos ⟨rfl, hn⟩, String.ofList_toList]

theorem isValid_of_label? {word n : String} (h : label? word = some n) : Identifier.isValid n :=
  (label?_eq_some_iff.1 h).1

theorem row_of_parse {row : Nat} {raw : String} {line : Line} (h : parse row raw = .ok line) :
    line.row = row := by
  obtain ⟨s, -, rfl⟩ := Results.map_eq_ok_iff.1 h
  rfl

theorem isValid_of_mem_labels {row : Nat} {raw n : String} {line : Line}
    (h : parse row raw = .ok line) (hn : n ∈ line.labels) : Identifier.isValid n := by
  obtain ⟨s, -, rfl⟩ := Results.map_eq_ok_iff.1 h
  obtain ⟨word, -, hw⟩ := List.mem_filterMap.1 hn
  exact isValid_of_label? hw

theorem isValid_of_mem_steps {row : Nat} {raw n : String} {line : Line} {s : Step}
    (h : parse row raw = .ok line) (hs : s ∈ line.steps) (hn : s.name? = some n) :
    Identifier.isValid n := by
  rcases List.mem_append.1 hs with hs | hs
  · obtain ⟨m, hm, rfl⟩ := List.mem_map.1 hs
    obtain rfl : m = n := by simpa [Step.name?] using hn
    exact isValid_of_mem_labels h hm
  · cases hst : line.statement with
    | none => simp [hst] at hs
    | some st => exact Statement.isValid_of_mem_steps (by simpa [hst] using hs) hn

end Line

namespace Program

/-- Every line of a program is read from the row that it is numbered for. -/
theorem exists_getElem?_of_mem_lines {rows : List String} {first : Nat} {line : Line}
    (h : line ∈ (ofRows rows first).lines) :
    ∃ i raw, rows[i]? = some raw ∧ Line.parse (first + i) raw = .ok line := by
  induction rows generalizing first with
  | nil => cases h
  | cons raw rows ih =>
    rw [ofRows_cons] at h
    unfold prepend at h
    split at h
    · cases h
    · rename_i l hl
      split at h
      · obtain rfl := List.mem_singleton.1 h
        exact ⟨0, raw, rfl, hl⟩
      · rcases List.mem_cons.1 h with rfl | h
        · exact ⟨0, raw, rfl, hl⟩
        · obtain ⟨i, raw', hraw, hp⟩ := ih h
          refine ⟨i + 1, raw', hraw, ?_⟩
          rwa [Nat.add_comm i 1, ← Nat.add_assoc]

theorem exists_parse_of_mem_lines {rows : List String} {first : Nat} {line : Line}
    (h : line ∈ (ofRows rows first).lines) : ∃ row, ∃ raw ∈ rows, Line.parse row raw = .ok line := by
  obtain ⟨i, raw, hraw, hp⟩ := exists_getElem?_of_mem_lines h
  exact ⟨first + i, raw, List.mem_of_getElem? hraw, hp⟩

theorem isValid_of_mem_steps {source : String} {x : Nat × Step} {n : String}
    (hx : x ∈ (ofSource source).steps) (hn : x.2.name? = some n) : Identifier.isValid n := by
  rcases List.mem_append.1 hx with hx | hx
  · obtain ⟨line, hline, hx⟩ := List.mem_flatMap.1 hx
    obtain ⟨s, hs, rfl⟩ := List.mem_map.1 hx
    obtain ⟨row, raw, -, hp⟩ := exists_parse_of_mem_lines hline
    exact Line.isValid_of_mem_steps hp hs hn
  · obtain ⟨f, -, rfl⟩ := Option.map_eq_some_iff.1 (Option.mem_toList.1 hx)
    cases hn

/-- The names that a source sets, uses or shares, as often as it does. -/
def names (p : Program) : List String := p.steps.filterMap fun x => x.2.name?

end Program

end SS16
