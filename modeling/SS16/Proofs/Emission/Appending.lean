import SS16.Proofs.Emission.Blocks

/-!
# SS16.Proofs.Emission.Appending — the second sweep adds to what is there

What lines lay down, and the fault that they end with, does not depend on what is there already.  So a
sweep leaves what it leaves when nothing is there yet, put behind what was there.  Main statements:
`BySection.Behind.append`, `Output.Behind.emit` and `emit_behind`.
-/

namespace SS16

namespace BySection

variable {α : Type} {m n r : BySection α}

/-- Sequences put behind others: a section holds the elements of the first and then those of the
second, and sections that came up in the second alone are listed behind those of the first. -/
structure Behind (m n r : BySection α) : Prop where
  get : ∀ k, r.get k = m.get k ++ n.get k
  keys : r.keys = m.keys ++ n.keys.filter fun k => k ∉ m.keys

theorem behind_empty (m : BySection α) : m.Behind .empty m where
  get _ := (List.append_nil _).symm
  keys := (List.append_nil _).symm

theorem Behind.mem_keys_iff (h : m.Behind n r) {k : Section} :
    k ∈ r.keys ↔ k ∈ m.keys ∨ k ∈ n.keys := by
  rw [h.keys, List.mem_append, List.mem_filter, decide_eq_true_iff]
  tauto

theorem Behind.append (h : m.Behind n r) (k : Section) (xs : List α) :
    m.Behind (n.append k xs) (r.append k xs) where
  get l := by
    rw [get_append, get_append, h.get]
    split
    · exact List.append_assoc _ _ _
    · rfl
  keys := by
    rw [keys_append, keys_append]
    by_cases hn : k ∈ n.keys
    · rw [if_pos hn, if_pos (h.mem_keys_iff.2 (.inr hn))]
      exact h.keys
    · rw [if_neg hn, List.filter_append, List.filter_singleton]
      by_cases hm : k ∈ m.keys
      · rw [if_pos (h.mem_keys_iff.2 (.inl hm)), h.keys, decide_eq_false (not_not_intro hm)]
        exact congrArg _ (List.append_nil _).symm
      · have hr : k ∉ r.keys := fun hr => (h.mem_keys_iff.1 hr).elim hm hn
        rw [if_neg hr, h.keys, decide_eq_true hm, List.append_assoc]
        rfl

end BySection

namespace Output

/-- An output put behind another: relocations and bytes by section, and the listing. -/
structure Behind (out d r : Output) : Prop where
  relocations : out.relocations.Behind d.relocations r.relocations
  code : out.code.Behind d.code r.code
  listing : r.listing.toList = out.listing.toList ++ d.listing.toList

variable {out d r : Output}

theorem behind_empty (out : Output) : out.Behind .empty out where
  relocations := out.relocations.behind_empty
  code := out.code.behind_empty
  listing := (List.append_nil _).symm

theorem Behind.relocateAt (h : out.Behind d r) (here : Option Place) (rs : List Relocation) :
    out.Behind (d.relocateAt here rs) (r.relocateAt here rs) := by
  cases here with
  | none => exact h
  | some p =>
    unfold Output.relocateAt relocate
    dsimp only
    split
    · exact h
    · exact ⟨h.relocations.append p.kind rs, h.code, h.listing⟩

theorem Behind.enterSome (h : out.Behind d r) (entry : Option Entry) :
    out.Behind (d.enterSome entry) (r.enterSome entry) := by
  cases entry with
  | none => exact h
  | some e =>
    refine ⟨h.relocations, ?_, ?_⟩
    · show out.code.Behind (if e.kind.hasContents then _ else _)
        (if e.kind.hasContents then _ else _)
      split
      · exact h.code.append e.kind e.bytes
      · exact h.code
    · show (r.listing.push e).toList = _ ++ (d.listing.push e).toList
      rw [Array.toList_push, Array.toList_push, h.listing, List.append_assoc]

theorem Behind.emit (h : out.Behind d r) (symbols : SymbolTable) (here : Option Place)
    (lines : List Line) :
    (r.emit symbols here lines).2 = (d.emit symbols here lines).2 ∧
      out.Behind (d.emit symbols here lines).1 (r.emit symbols here lines).1 := by
  induction lines generalizing d r here with
  | nil => exact ⟨rfl, h⟩
  | cons line lines ih =>
    have hline := h.relocateAt here (line.effect symbols here).relocations
    unfold Output.emit
    dsimp only
    -- the effect of the line looks at the place alone
    cases (line.effect symbols here).outcome with
    | error f => exact ⟨rfl, hline⟩
    | ok next =>
      obtain ⟨there, entry⟩ := next
      exact ih (hline.enterSome entry) there

end Output

/-- The second sweep never looks at what is there already.  It ends in the same way as when nothing is
there, and leaves what it leaves then, put behind what was there. -/
theorem emit_behind (source : String) (symbols : SymbolTable) (out : Output) :
    ((Program.ofSource source).emit symbols out).2 =
        ((Program.ofSource source).emit symbols .empty).2 ∧
      out.Behind ((Program.ofSource source).emit symbols .empty).1
        ((Program.ofSource source).emit symbols out).1 := by
  obtain ⟨hresult, hout⟩ :=
    out.behind_empty.emit symbols none (Program.ofSource source).lines
  unfold Program.emit
  generalize out.emit symbols none (Program.ofSource source).lines = x at hresult hout
  generalize Output.empty.emit symbols none (Program.ofSource source).lines = y at hresult hout
  obtain ⟨r, there⟩ := x
  obtain ⟨d, there'⟩ := y
  obtain rfl : there = there' := hresult
  cases there with
  | error l => exact ⟨rfl, hout⟩
  | ok place => exact ⟨rfl, hout⟩

end SS16
