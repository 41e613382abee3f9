import Mathlib.Data.List.Induction
import Mathlib.Data.List.Nodup

/-!
# SS16.Proofs.Along — what holds of each element and of those in front of it

`Along P l`: every element of a list is related by `P` to the elements in front of it.  So are said
conditions on a line that depend on earlier lines.  Main statements: `along_append`,
`along_flatMap` and `nodup_filterMap_iff_along`.
-/

namespace SS16

variable {α β : Type} {P Q : List α → α → Prop} {x : α} {xs ys l : List α}

/-- Every element is related to the list of those in front of it. -/
def Along (P : List α → α → Prop) (l : List α) : Prop :=
  ∀ xs x ys, l = xs ++ x :: ys → P xs x

theorem along_nil : Along P [] := by
  intro xs x ys h
  cases xs <;> cases h

theorem along_cons : Along P (x :: l) ↔ P [] x ∧ Along (fun before => P (x :: before)) l := by
  constructor
  · intro h
    refine ⟨h [] x l rfl, ?_⟩
    rintro xs y ys rfl
    exact h (x :: xs) y ys rfl
  · rintro ⟨hx, hl⟩ xs y ys he
    cases xs with
    | nil =>
      obtain ⟨rfl, -⟩ := List.cons.inj he
      exact hx
    | cons z xs =>
      obtain ⟨rfl, rfl⟩ := List.cons.inj he
      exact hl xs y ys rfl

theorem along_append :
    Along P (xs ++ ys) ↔ Along P xs ∧ Along (fun before => P (xs ++ before)) ys := by
  induction xs generalizing P with
  | nil => simp [along_nil]
  | cons x xs ih => rw [List.cons_append, along_cons, along_cons, ih, and_assoc]; rfl

theorem along_concat : Along P (xs ++ [x]) ↔ Along P xs ∧ P xs x := by
  rw [along_append, along_cons, List.append_nil]
  simp [along_nil]

theorem Along.imp (h : Along P l) (hPQ : ∀ before, ∀ x ∈ l, P before x → Q before x) :
    Along Q l := by
  rintro xs x ys rfl
  exact hPQ xs x (List.mem_append_right xs List.mem_cons_self) (h xs x ys rfl)

theorem along_congr (h : ∀ before, ∀ x ∈ l, P before x ↔ Q before x) : Along P l ↔ Along Q l :=
  ⟨fun hP => hP.imp fun before x hx => (h before x hx).1,
    fun hQ => hQ.imp fun before x hx => (h before x hx).2⟩

theorem along_const {p : α → Prop} : Along (fun _ x => p x) l ↔ ∀ x ∈ l, p x := by
  constructor
  · intro h x hx
    obtain ⟨xs, ys, rfl⟩ := List.append_of_mem hx
    exact h xs x ys rfl
  · rintro h xs x ys rfl
    exact h x (List.mem_append_right xs List.mem_cons_self)

theorem along_flatMap {f : β → List α} {l : List β} :
    Along P (l.flatMap f) ↔
      Along (fun before y => Along (fun inner => P (before.flatMap f ++ inner)) (f y)) l := by
  induction l generalizing P with
  | nil => simp [along_nil]
  | cons y l ih =>
    rw [List.flatMap_cons, along_append, along_cons, ih]
    simp only [List.flatMap_nil, List.nil_append, List.flatMap_cons, List.append_assoc]

theorem nodup_filterMap_iff_along {f : α → Option β} :
    (l.filterMap f).Nodup ↔ Along (fun before x => ∀ b, f x = some b → b ∉ before.filterMap f) l := by
  induction l using List.reverseRecOn with
  | nil => simp [along_nil]
  | append_singleton l x ih =>
    rw [along_concat, ← ih, List.filterMap_append]
    cases hx : f x with
    | none => simp [hx]
    | some b =>
      rw [List.filterMap_cons_some hx, List.filterMap_nil, List.nodup_append]
      constructor
      · rintro ⟨hl, -, hne⟩
        refine ⟨hl, fun c hc hmem => ?_⟩
        exact hne c hmem b List.mem_cons_self (Option.some.inj hc).symm
      · rintro ⟨hl, hb⟩
        refine ⟨hl, List.nodup_singleton b, ?_⟩
        rintro c hc d hd rfl
        exact hb b rfl (List.mem_singleton.1 hd ▸ hc)

end SS16
