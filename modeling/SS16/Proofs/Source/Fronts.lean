import SS16.Proofs.Source.Blocks
import SS16.Proofs.Source.Exports

/-!
# SS16.Proofs.Source.Fronts — the first rows of a source

`Text.front` cuts a text behind a number of its rows.  A program that goes on behind some of its lines
is that of as many first rows and, from the next row on, of the others.  Main statements:
`Text.rows_front` and `Program.ofRows_take_drop`.
-/

namespace SS16

/-! ### Texts -/

namespace Text

/-- The first rows of a text with the line feeds that end them. -/
def frontOf : Nat → List Char → List Char
  | 0, _ => []
  | _ + 1, [] => []
  | n + 1, c :: cs => c :: frontOf (if c = '\n' then n else n + 1) cs

def front (n : Nat) (text : String) : String := String.ofList (frontOf n text.toList)

theorem frontOf_of_not_mem {xs : List Char} (h : '\n' ∉ xs) (n : Nat) :
    frontOf (n + 1) xs = xs := by
  induction xs with
  | nil => rfl
  | cons c xs ih =>
    rw [List.mem_cons, not_or] at h
    rw [frontOf, if_neg (Ne.symm h.1), ih h.2]

theorem frontOf_line {xs : List Char} (h : '\n' ∉ xs) (n : Nat) (ys : List Char) :
    frontOf (n + 1) (xs ++ '\n' :: ys) = xs ++ '\n' :: frontOf n ys := by
  induction xs with
  | nil => rfl
  | cons c xs ih =>
    rw [List.mem_cons, not_or] at h
    rw [List.cons_append, frontOf, if_neg (Ne.symm h.1), ih h.2]
    rfl

theorem rowsOf_line {xs : List Char} (h : '\n' ∉ xs) (ys : List Char) :
    rowsOf (xs ++ '\n' :: ys) = dropReturn xs :: rowsOf ys := by
  have hno : ∀ c ∈ xs, (c == '\n') = false := by
    intro c hc
    rw [beq_eq_false_iff_ne]
    rintro rfl
    exact h hc
  have hpieces : (xs ++ ['\n']).splitOnP (· == '\n') = [xs, []] := by
    rw [List.splitOnP_append_cons_of_forall_mem hno '\n' (by decide)]
    rfl
  have hrow : rowsOf (xs ++ ['\n']) = [dropReturn xs] := by
    unfold rowsOf
    dsimp only
    rw [hpieces]
    rfl
  rw [← List.singleton_append, ← List.append_assoc, rowsOf_append (.inr List.getLast?_concat), hrow]
  rfl

/-- The rows of the front of a text are its first rows. -/
theorem rowsOf_frontOf (n : Nat) (cs : List Char) :
    rowsOf (frontOf n cs) = (rowsOf cs).take n := by
  induction n generalizing cs with
  | zero =>
    rw [List.take_zero]
    cases cs <;> rfl
  | succ n ih =>
    by_cases h : '\n' ∈ cs
    · obtain ⟨xs, ys, rfl, hxs⟩ := List.eq_append_cons_of_mem h
      rw [frontOf_line hxs, rowsOf_line hxs, rowsOf_line hxs, ih, List.take_succ_cons]
    · rw [frontOf_of_not_mem h]
      cases cs with
      | nil => rfl
      | cons c cs =>
        rw [rowsOf_of_forall_ne (fun d hd he => h (he ▸ hd)) (List.cons_ne_nil c cs),
          List.take_succ_cons, List.take_nil]

theorem rows_front (n : Nat) (text : String) : rows (front n text) = (rows text).take n := by
  unfold rows front
  rw [String.toList_ofList, rowsOf_frontOf, List.map_take]

end Text

/-! ### Programs -/

namespace Program

/-- A program that goes on behind some of its lines is cut there row by row. -/
theorem ofRows_take_drop {rows : List String} {row : Nat} {xs rest : List Line}
    {fault : Option (Nat × Fault)} (h : ofRows rows row = ⟨xs ++ rest, fault⟩)
    (hmore : rest ≠ [] ∨ fault ≠ none) :
    ofRows (rows.take xs.length) row = ⟨xs, none⟩ ∧
      ofRows (rows.drop xs.length) (row + xs.length) = ⟨rest, fault⟩ := by
  induction xs generalizing rows row with
  | nil => exact ⟨rfl, h⟩
  | cons x xs ih =>
    cases rows with
    | nil => cases h
    | cons raw rows =>
      rw [ofRows_cons] at h
      unfold prepend at h
      cases hp : Line.parse row raw with
      | error f =>
        rw [hp] at h
        cases h
      | ok line =>
        rw [hp] at h
        dsimp only at h
        split_ifs at h with hs
        · -- nothing is behind the end of a source
          obtain ⟨hlines, hfault⟩ := Program.mk.inj h
          obtain ⟨rfl, htail⟩ := List.cons.inj hlines
          obtain ⟨-, rfl⟩ := List.append_eq_nil_iff.1 htail.symm
          exact (hmore.elim (absurd rfl) (absurd hfault.symm))
        · obtain ⟨hlines, hfault⟩ := Program.mk.inj h
          obtain ⟨rfl, htail⟩ := List.cons.inj hlines
          have hrest : ofRows rows (row + 1) = ⟨xs ++ rest, fault⟩ := by
            rw [← hfault]
            exact congrArg (Program.mk · _) htail
          obtain ⟨h1, h2⟩ := ih hrest
          refine ⟨?_, ?_⟩
          · rw [List.length_cons, List.take_succ_cons, ofRows_cons, h1]
            unfold prepend
            rw [hp]
            exact if_neg hs
          · rw [List.length_cons, List.drop_succ_cons, Nat.add_comm xs.length 1, ← Nat.add_assoc]
            exact h2

theorem parse_of_ofRows_cons {rows : List String} {row : Nat} {line : Line} {lines : List Line}
    {fault : Option (Nat × Fault)} (h : ofRows rows row = ⟨line :: lines, fault⟩) :
    ∃ raw, rows.head? = some raw ∧ Line.parse row raw = .ok line := by
  cases rows with
  | nil => cases h
  | cons raw rows =>
    refine ⟨raw, rfl, ?_⟩
    rw [ofRows_cons] at h
    unfold prepend at h
    cases hp : Line.parse row raw with
    | error f =>
      rw [hp] at h
      cases h
    | ok line' =>
      rw [hp] at h
      dsimp only at h
      split_ifs at h <;> cases h <;> rfl

theorem parse_of_ofRows_fault {rows : List String} {row i : Nat} {f : Fault}
    (h : ofRows rows row = ⟨[], some (i, f)⟩) :
    i = row ∧ ∃ raw, rows.head? = some raw ∧ Line.parse row raw = .error f := by
  cases rows with
  | nil => cases h
  | cons raw rows =>
    rw [ofRows_cons] at h
    unfold prepend at h
    cases hp : Line.parse row raw with
    | error f' =>
      rw [hp] at h
      cases h
      exact ⟨rfl, raw, rfl, hp⟩
    | ok line =>
      rw [hp] at h
      dsimp only at h
      split_ifs at h <;> cases h

end Program

end SS16
