import SS16.Proofs.Layout.Reordering

/-!
# SS16.Proofs.Layout.Exports — lines that only export names

A line without labels that only exports names asks nothing of its place and leaves place and sections
as they are, so such lines can stand anywhere.  Main statements: `Line.reordered_of_core` and
`Layout.Takes.extents_eq_of_core`.
-/

namespace SS16

namespace Line

def isExport : Line → Bool
  | ⟨_, [], some (.global _)⟩ => true
  | _ => false

def core (lines : List Line) : List Line := lines.filter fun line => !line.isExport

theorem exists_of_isExport {line : Line} (h : line.isExport) :
    line.labels = [] ∧ ∃ names, line.statement = some (.global names) := by
  unfold isExport at h
  split at h
  · exact ⟨rfl, _, rfl⟩
  · cases h

theorem occupies_of_isExport {line : Line} (h : line.isExport) : line.occupies = false := by
  obtain ⟨-, names, hs⟩ := exists_of_isExport h
  unfold occupies
  rw [hs]
  rfl

theorem opens?_of_isExport {line : Line} (h : line.isExport) : line.opens? = none := by
  obtain ⟨-, names, hs⟩ := exists_of_isExport h
  unfold opens?
  rw [hs]
  rfl

theorem step_of_isExport {line : Line} (h : line.isExport) {s : Step} (hs : s ∈ line.steps) :
    s.opens? = none ∧ ∀ here, s.next here = here := by
  obtain ⟨hl, names, hst⟩ := exists_of_isExport h
  unfold steps at hs
  rw [hl, hst] at hs
  obtain ⟨n, -, rfl⟩ := List.mem_map.1 (show s ∈ names.map Statement.shareStep from hs)
  unfold Statement.shareStep
  split
  · exact ⟨rfl, fun _ => rfl⟩
  · exact ⟨rfl, fun _ => rfl⟩

theorem next_of_isExport {line : Line} (h : line.isExport) (here : Option Place) :
    line.next here = here :=
  Step.foldl_next_eq_self (fun _ hs => (step_of_isExport h hs).2) here

theorem core_concat (lines : List Line) (line : Line) :
    core (lines ++ [line]) = if line.isExport then core lines else core lines ++ [line] := by
  unfold core
  rw [List.filter_append, List.filter_singleton]
  cases line.isExport
  · rfl
  · exact List.append_nil _

theorem foldl_core {α : Type} {f : α → Line → α}
    (hf : ∀ line : Line, line.isExport → ∀ a, f a line = a) (lines : List Line) (a : α) :
    (core lines).foldl f a = lines.foldl f a := by
  induction lines using List.reverseRecOn with
  | nil => rfl
  | append_singleton lines line ih =>
    rw [core_concat, List.foldl_append, ← ih]
    by_cases h : line.isExport
    · rw [if_pos h, List.foldl_cons, List.foldl_nil, hf line h]
    · rw [if_neg h, List.foldl_append]

/-- What places ask of lines is asked of those in the core. -/
theorem along_core_iff {Q : Option Place → Line → Prop}
    (hQ : ∀ here line, line.isExport → Q here line) (lines : List Line) :
    Along (fun before line => Q (before.foldl next none) line) (core lines) ↔
      Along (fun before line => Q (before.foldl next none) line) lines := by
  induction lines using List.reverseRecOn with
  | nil => rfl
  | append_singleton lines line ih =>
    have hplace := foldl_core (f := next) (fun _ h => next_of_isExport h) lines none
    rw [core_concat, along_concat, ← ih]
    by_cases h : line.isExport
    · rw [if_pos h, and_iff_left (hQ _ line h)]
    · rw [if_neg h, along_concat, hplace]

theorem reordered_of_core {lines lines' : List Line} (hp : lines.Perm lines')
    (hc : core lines = core lines') : Reordered lines lines' where
  perm := hp
  along_iff Q hQ := by
    have hexport : ∀ here line, line.isExport → Q here line := fun here line h =>
      hQ here line (exists_of_isExport h).1 (occupies_of_isExport h)
    rw [← along_core_iff hexport lines, ← along_core_iff hexport lines', hc]

end Line

/-! ### Sections -/

namespace Step

/-- The finished sections and the open place after a step that is not refused. -/
def fill (state : List Extent × Option Place) (s : Step) : List Extent × Option Place :=
  (if s.opens?.isSome then state.1 ++ (state.2.map Place.extent).toList else state.1,
    s.next state.2)

end Step

namespace Layout

theorem fill_take (l : Layout) (s : Step) :
    ((l.take s).closed.toList, (l.take s).place) = s.fill (l.closed.toList, l.place) := by
  refine Prod.ext ?_ (place_take l s)
  unfold Step.fill
  cases hs : s.opens? with
  | none =>
    rw [closed_take hs]
    rfl
  | some k =>
    cases s with
    | enter j =>
      rw [closed_take_enter, extents_eq]
      rfl
    | _ => cases hs

theorem Takes.fill {l l' : Layout} {xs : List (Nat × Step)} (h : l.Takes xs l') :
    (l'.closed.toList, l'.place) =
      (xs.map Prod.snd).foldl Step.fill (l.closed.toList, l.place) := by
  induction xs generalizing l with
  | nil => exact takes_nil.1 h ▸ rfl
  | cons x xs ih =>
    obtain ⟨-, h⟩ := takes_cons.1 h
    rw [ih h, fill_take]
    rfl

theorem Takes.extents_eq_of_core {t t' : SymbolTable} {l l' : Layout} {lines lines' : List Line}
    (h : (start t).Takes (lines.flatMap Line.located) l)
    (h' : (start t').Takes (lines'.flatMap Line.located) l')
    (hc : Line.core lines = Line.core lines') : l.extents = l'.extents := by
  have hexport : ∀ line : Line, line.isExport →
      ∀ state, line.steps.foldl Step.fill state = state := by
    intro line hline state
    have hall : ∀ s ∈ line.steps, ∀ state, Step.fill state s = state := by
      intro s hs state
      obtain ⟨ho, hn⟩ := Line.step_of_isExport hline hs
      unfold Step.fill
      rw [ho, hn]
      rfl
    generalize line.steps = xs at hall
    induction xs with
    | nil => rfl
    | cons s xs ih =>
      rw [List.foldl_cons, hall s List.mem_cons_self]
      exact ih fun u hu => hall u (List.mem_cons_of_mem s hu)
  have hfill : ∀ {t : SymbolTable} {l : Layout} {lines : List Line},
      (start t).Takes (lines.flatMap Line.located) l →
      (l.closed.toList, l.place) = (Line.core lines).foldl
        (fun state line => line.steps.foldl Step.fill state) ([], none) := by
    intro t l lines h
    rw [h.fill, Line.map_snd_flatMap_located, List.foldl_flatMap, Line.foldl_core hexport]
    rfl
  obtain ⟨hclosed, hplace⟩ := Prod.mk.inj ((hfill h).trans (hc ▸ (hfill h').symm))
  rw [extents_eq, extents_eq, hclosed, hplace]

end Layout

end SS16
