import SS16.Proofs.Object.Rows
import SS16.Text.YamlScalar

/-!
# SS16.Proofs.Object.YamlNames — names as YAML scalars

A name is written as it is or in single quotes, whatever it would be read as without them.  It stays
on its line either way, and no two names are written alike.  Main statements:
`YamlScalar.render_of_isBare` and `YamlScalar.render_inj`.
-/

namespace SS16.YamlScalar

/-! ### Bare characters -/

/-- Whether a character stands for itself inside single quotes, and at the start of a line is neither
a blank nor one of the marks of an item or a value. -/
def isBare (c : Char) : Bool :=
  isPrintable c && !isBreak c && !([' ', '-', ':', '\''].contains c)

theorem isBare_iff {c : Char} :
    isBare c ↔ isPrintable c ∧ isBreak c = false ∧ c ∉ [' ', '-', ':', '\''] := by
  rw [isBare, Bool.and_eq_true, Bool.and_eq_true, Bool.not_eq_true', Bool.not_eq_true', and_assoc,
    List.contains_eq_mem, decide_eq_false_iff_not]

def IsBare (s : String) : Prop := s.toList ≠ [] ∧ ∀ c ∈ s.toList, isBare c

theorem isBare_of_isTail {c : Char} (h : Identifier.isTail c) : isBare c :=
  Identifier.forall_isTail (P := fun c => isBare c) (by decide +kernel) h

theorem isBare_of_isValid {s : String} (h : Identifier.isValid s) : IsBare s :=
  ⟨Identifier.ne_nil_of_valid h, fun _ hc => isBare_of_isTail (Identifier.isTail_of_mem h hc)⟩

-- Here and below a quantifier is decided along the text, not over all characters.
instance (s : String) : Decidable (IsBare s) :=
  have : Decidable (∀ c ∈ s.toList, isBare c) := List.decidableBAll _ _
  inferInstanceAs (Decidable (s.toList ≠ [] ∧ ∀ c ∈ s.toList, isBare c))

theorem isBare_sectionName (k : Section) : IsBare k.name := by
  cases k <;> decide

/-! ### Texts on one line -/

def Unbroken (s : String) : Prop := ∀ c ∈ s.toList, isBreak c = false

instance (s : String) : Decidable (Unbroken s) := List.decidableBAll _ _

theorem Unbroken.append {s t : String} (hs : Unbroken s) (ht : Unbroken t) : Unbroken (s ++ t) := by
  intro c hc
  rw [String.toList_append] at hc
  exact (List.mem_append.1 hc).elim (hs c) (ht c)

theorem IsBare.unbroken {s : String} (h : IsBare s) : Unbroken s := fun c hc =>
  (isBare_iff.1 (h.2 c hc)).2.1

theorem unbroken_toString (n : Nat) : Unbroken (toString n) := by
  intro c hc
  rw [Nat.toString_eq_repr, Nat.toList_repr] at hc
  have hdigit := Nat.isDigit_of_mem_toDigits (by decide) (by decide) hc
  have htail : Identifier.isTail c := by simp [Identifier.isTail, Char.isAlphanum, hdigit]
  exact (isBare_iff.1 (isBare_of_isTail htail)).2.1

/-! ### The forms of a name -/

theorem hasNeighbours_eq_false {p q : Char → Bool} {cs : List Char}
    (h : (∀ c ∈ cs, p c = false) ∨ ∀ c ∈ cs, q c = false) : hasNeighbours p q cs = false := by
  unfold hasNeighbours
  rw [List.any_eq_false]
  intro c hc
  rw [Bool.and_eq_true]
  rintro ⟨hp, hq⟩
  have hmem := List.of_mem_zip (show (c.1, c.2) ∈ cs.zip cs.tail from hc)
  rcases h with h | h
  · rw [h _ hmem.1] at hp
    cases hp
  · rw [h _ (List.mem_of_mem_tail hmem.2)] at hq
    cases hq

theorem IsBare.fitsQuotes {s : String} (h : IsBare s) : fitsQuotes s.toList := by
  have hbreak : ∀ c ∈ s.toList, isBreak c = false := h.unbroken
  unfold YamlScalar.fitsQuotes
  rw [hasNeighbours_eq_false (.inr hbreak), hasNeighbours_eq_false (.inl hbreak),
    List.all_eq_true.2 fun c hc => (isBare_iff.1 (h.2 c hc)).1]
  rfl

/-- A name is read back from a plain scalar or from one in single quotes. -/
theorem IsBare.form {s : String} (h : IsBare s) :
    Form.ofString s = .plain ∨ Form.ofString s = .single := by
  have hline : s.toList.contains '\n' = false := by
    rw [List.contains_eq_mem, decide_eq_false_iff_not]
    intro hc
    exact absurd (h.unbroken _ hc) (by decide)
  unfold Form.ofString
  dsimp only
  rw [hline, h.fitsQuotes, Bool.not_true, if_neg Bool.false_ne_true, if_neg Bool.false_ne_true]
  exact (ite_eq_or_eq _ _ _).symm

theorem flatMap_quoteSingle {cs : List Char} (h : '\'' ∉ cs) : cs.flatMap quoteSingle = cs := by
  have hquote : cs.flatMap quoteSingle = cs.flatMap fun c => [c] :=
    congrArg List.flatten (List.map_congr_left fun c hc => if_neg (by rintro rfl; exact h hc))
  rw [hquote]
  exact List.flatMap_singleton' cs

theorem indented_of_unbroken {depth : Nat} {cs : List Char} (h : ∀ c ∈ cs, isBreak c = false) :
    indented depth false cs = cs := by
  induction cs with
  | nil => rfl
  | cons c cs ih =>
    unfold indented
    rw [h c List.mem_cons_self, ih fun d hd => h d (List.mem_cons_of_mem c hd)]
    rfl

theorem render_of_isBare {s : String} (h : IsBare s) (depth : Nat) :
    render depth s = s ∨ render depth s = "'" ++ s ++ "'" := by
  rcases h.form with hform | hform
  · left
    rw [render, hform]
  · right
    have hquote : '\'' ∉ s.toList := fun hc => (isBare_iff.1 (h.2 _ hc)).2.2 (by decide)
    have hbreak : ∀ c ∈ s.toList ++ ['\''], isBreak c = false := by
      intro c hc
      rcases List.mem_append.1 hc with hc | hc
      · exact h.unbroken c hc
      · rw [List.mem_singleton.1 hc]
        decide
    rw [render, hform]
    dsimp only
    rw [flatMap_quoteSingle hquote, indented_of_unbroken hbreak]
    apply String.toList_injective
    rw [String.toList_ofList, String.toList_append, String.toList_append]
    rfl

theorem render_inj {s t : String} (hs : IsBare s) (ht : IsBare t) {depth : Nat}
    (h : render depth s = render depth t) : s = t := by
  -- what is in quotes is no name
  have hmixed : ∀ {u v : String}, IsBare u → u ≠ "'" ++ v ++ "'" := by
    rintro u v hu rfl
    refine (isBare_iff.1 (hu.2 '\'' ?_)).2.2 (by decide)
    rw [String.toList_append]
    exact List.mem_append_right _ List.mem_cons_self
  rcases render_of_isBare hs depth with hp | hq
  · rcases render_of_isBare ht depth with hp' | hq'
    · exact hp.symm.trans (h.trans hp')
    · exact absurd (hp.symm.trans (h.trans hq')) (hmixed hs)
  · rcases render_of_isBare ht depth with hp' | hq'
    · exact absurd (hp'.symm.trans (h.symm.trans hq)) (hmixed ht)
    · have hquoted := hq.symm.trans (h.trans hq')
      rw [String.append_left_inj, String.append_right_inj] at hquoted
      exact hquoted

theorem unbroken_render {s : String} (h : IsBare s) (depth : Nat) : Unbroken (render depth s) := by
  rcases render_of_isBare h depth with hr | hr
  · rw [hr]
    exact h.unbroken
  · rw [hr]
    exact ((show Unbroken "'" by decide).append h.unbroken).append (by decide)

/-- The first character of a name marks neither an item nor a value. -/
theorem exists_head?_render {s : String} (h : IsBare s) (depth : Nat) :
    ∃ c, (render depth s).toList.head? = some c ∧ c ∉ [' ', '-', ':'] := by
  rcases render_of_isBare h depth with hr | hr
  · obtain ⟨c, cs, hs⟩ := List.exists_cons_of_ne_nil h.1
    refine ⟨c, by rw [hr, hs]; rfl, fun hc => ?_⟩
    exact (isBare_iff.1 (h.2 c (hs ▸ List.mem_cons_self))).2.2 (List.mem_append_left ['\''] hc)
  · refine ⟨'\'', ?_, by decide⟩
    rw [hr, String.append_assoc, String.toList_append]
    rfl

end SS16.YamlScalar
