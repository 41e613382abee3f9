import SS16.Proofs.Results
import SS16.Source.Statement

/-!
# SS16.Proofs.Source.Keywords — the words that select statements

A directive has one spelling, and an operation has one with each condition and one without.  No such
word is a label.  Main statements: `Mnemonic.parse?_eq_some_iff`, `Keyword.eq_text_of_parse?`,
`Keyword.label?_text` and `Statement.exists_makes`.
-/

namespace SS16

theorem Operation.name_of_parse? {s : String} {o : Operation} (h : parse? s = some o) :
    o.name = s :=
  eq_of_beq (List.find?_some (p := fun o : Operation => o.name == s) h)

theorem Condition.name_of_parse? {s : String} {c : Condition} (h : parse? s = some c) :
    c.name = s :=
  eq_of_beq (List.find?_some (p := fun c : Condition => c.name == s) h)

theorem Section.name_of_parse? {s : String} {k : Section} (h : parse? s = some k) : k.name = s :=
  eq_of_beq (List.find?_some (p := fun k : Section => k.name == s) h)

theorem Width.name_of_parse? {s : String} {w : Width} (h : parse? s = some w) : w.name = s :=
  eq_of_beq (List.find?_some (p := fun w : Width => w.name == s) h)

/-- The spellings of a condition in front of an operation; none means `al`. -/
inductive Condition.Written : Condition → String → Prop
  | bare : Written .always ""
  | named (c : Condition) : Written c c.name

namespace Mnemonic

theorem parse?_of_written {c : Condition} {written : String} (h : c.Written written)
    (o : Operation) : parse? (written ++ o.name) = some ⟨c, o⟩ := by
  cases h with
  | named c => exact parse?_text ⟨c, o⟩
  | bare =>
    cases o with
    | machine o => cases o <;> decide +kernel
    | _ => decide

theorem parse?_eq_some_iff {s : String} {m : Mnemonic} :
    parse? s = some m ↔ ∃ written, m.condition.Written written ∧ s = written ++ m.operation.name := by
  constructor
  · intro h
    unfold parse? at h
    cases ho : Operation.parse? s with
    | some o =>
      rw [ho] at h
      cases h
      exact ⟨"", .bare, by rw [Operation.name_of_parse? ho, String.empty_append]⟩
    | none =>
      rw [ho] at h
      obtain ⟨c, hc, h⟩ := Option.bind_eq_some_iff.1 h
      obtain ⟨o, ho, h⟩ := Option.bind_eq_some_iff.1 h
      cases h
      refine ⟨c.name, .named c, ?_⟩
      rw [Condition.name_of_parse? hc, Operation.name_of_parse? ho, ← String.toList_inj,
        String.toList_append, String.toList_ofList, String.toList_ofList, List.take_append_drop]
  · rintro ⟨written, hc, rfl⟩
    exact parse?_of_written hc m.operation

theorem head?_of_parse? {s : String} {m : Mnemonic} (h : parse? s = some m) :
    s.toList.head? ≠ some '.' := by
  obtain ⟨written, hc, rfl⟩ := parse?_eq_some_iff.1 h
  obtain ⟨c, o⟩ := m
  cases hc with
  | bare =>
    cases o with
    | machine o => cases o <;> decide
    | _ => decide
  | named c =>
    rw [String.toList_append]
    cases c <;> simp [Condition.name]

end Mnemonic

/-- A directive is known by its spelling, and all other words that select a statement are
mnemonics. -/
theorem Keyword.eq_text_of_parse? {s : String} {k : Keyword} (h : parse? s = some k) :
    (s = k.text ∧ ∀ m, k ≠ .instruction m) ∨
      ∃ m, k = .instruction m ∧ Mnemonic.parse? s = some m := by
  unfold parse? at h
  split_ifs at h with h1 h2 h3 h4
  · cases h
    exact .inl ⟨h1, fun m => by simp⟩
  · cases h
    exact .inl ⟨h2, fun m => by simp⟩
  · cases h
    exact .inl ⟨h3, fun m => by simp⟩
  · cases h
    exact .inl ⟨h4, fun m => by simp⟩
  · cases hs : Section.parse? s with
    | some j =>
      rw [hs] at h
      cases h
      exact .inl ⟨(Section.name_of_parse? hs).symm, fun m => by simp⟩
    | none =>
      cases hw : Width.parse? s with
      | some w =>
        rw [hs, hw] at h
        cases h
        exact .inl ⟨(Width.name_of_parse? hw).symm, fun m => by simp⟩
      | none =>
        rw [hs, hw] at h
        obtain ⟨m, hm, rfl⟩ := Option.map_eq_some_iff.1 h
        exact .inr ⟨m, rfl, hm⟩

theorem Keyword.parse?_of_written {c : Condition} {written : String} (h : c.Written written)
    (o : Operation) : parse? (written ++ o.name) = some (.instruction ⟨c, o⟩) := by
  cases h with
  | named c => exact parse?_text (.instruction ⟨c, o⟩)
  | bare =>
    cases o with
    | machine o => cases o <;> decide +kernel
    | _ => decide

theorem Keyword.parse?_eq_instruction_iff {s : String} {m : Mnemonic} :
    parse? s = some (.instruction m) ↔ Mnemonic.parse? s = some m := by
  constructor
  · intro h
    rcases eq_text_of_parse? h with ⟨-, hne⟩ | ⟨m', he, hm⟩
    · exact absurd rfl (hne m)
    · cases he
      exact hm
  · intro h
    obtain ⟨written, hc, rfl⟩ := Mnemonic.parse?_eq_some_iff.1 h
    exact parse?_of_written hc m.operation

theorem Keyword.label?_text (k : Keyword) : Line.label? k.text = none := by
  cases k with
  | enter k => cases k <;> decide
  | data w => cases w <;> decide
  | instruction m =>
    obtain ⟨c, o⟩ := m
    cases o with
    | machine o => cases c <;> cases o <;> decide
    | ret => cases c <;> decide
    | jmp => cases c <;> decide
  | _ => decide

namespace Statement

/-- The statements that a keyword can make of its arguments. -/
inductive Makes : Keyword → List String → Statement → Prop
  | stop (args : List String) : Makes .stop args .stop
  | enter (k : Section) (args : List String) : Makes (.enter k) args (.enter k)
  | data (w : Width) (args : List String) : Makes (.data w) args (.data w args)
  | skip (args : List String) (n : UInt16) : Makes .skip args (.skip n)
  | align (args : List String) (n : UInt16) : Makes .align args (.align n)
  | global (args : List String) : Makes .global args (.global args)
  | instruction (m : Mnemonic) (args : List String) :
    Makes (.instruction m) args (.instruction m args)

theorem exists_makes {word : String} {args : List String} {s : Statement}
    (h : parse word args = .ok s) : ∃ k, Keyword.parse? word = some k ∧ Makes k args s := by
  unfold parse at h
  cases hk : Keyword.parse? word with
  | none =>
    rw [hk] at h
    cases h
  | some k =>
    rw [hk] at h
    refine ⟨k, rfl, ?_⟩
    cases k with
    | stop =>
      cases h
      exact .stop args
    | enter k =>
      cases h
      exact .enter k args
    | data w =>
      cases h
      exact .data w args
    | skip =>
      obtain ⟨n, -, rfl⟩ := Results.map_eq_ok_iff.1 h
      exact .skip args n
    | align =>
      obtain ⟨n, -, h⟩ := Results.bind_eq_ok_iff.1 h
      split_ifs at h
      cases h
      exact .align args n
    | global =>
      cases h
      exact .global args
    | instruction m =>
      cases h
      exact .instruction m args

end Statement

theorem Line.not_isLabel_of_written {c : Condition} {written : String} (h : c.Written written)
    (o : Operation) : isLabel (written ++ o.name) = false := by
  cases h with
  | named c =>
    have hlabel : label? (c.name ++ o.name) = none := Keyword.label?_text (.instruction ⟨c, o⟩)
    unfold isLabel
    rw [hlabel]
    rfl
  | bare =>
    cases o with
    | machine o => cases o <;> decide
    | _ => decide

end SS16
