import SS16.Proofs.Layout.Reordering

/-!
# SS16.Proofs.Layout.Blocks — blocks of lines in any order

A block opens a section on its first line and no other one, so what it asks for and where it puts its
labels does not depend on what stands in front of it.  Main statements: `Line.along_append_blocks`,
`Line.reordered_blocks` (blocks can come in any order) and `Takes.extents_blocks`.
-/

namespace SS16

namespace Line

/-- Lines that open a section, once and on the first of them, which has no label. -/
inductive Block : List Line → Prop
  | intro (line : Line) (k : Section) (body : List Line) (hl : line.labels = [])
    (hs : line.statement = some (.enter k)) (hb : ∀ b ∈ body, b.opens? = none) :
    Block (line :: body)

theorem next_of_enter {line : Line} {k : Section} (hs : line.statement = some (.enter k))
    (here : Option Place) : line.next here = some (.start k) := by
  rw [next_of_some hs]
  rfl

theorem Block.foldl_next {lines : List Line} (h : Block lines) (here : Option Place) :
    lines.foldl next here = lines.foldl next none := by
  obtain ⟨line, k, body, -, hs, -⟩ := h
  rw [List.foldl_cons, List.foldl_cons, next_of_enter hs, next_of_enter hs]

section

variable {Q : Option Place → Line → Prop}

/-- What a place asks of a line is asked of a block alone, whatever stands in front of it. -/
theorem Block.along_iff {lines : List Line} (h : Block lines)
    (hQ : ∀ here line, line.labels = [] → line.opens?.isSome → Q here line) (front : List Line) :
    Along (fun before line => Q ((front ++ before).foldl next none) line) lines ↔
      Along (fun before line => Q (before.foldl next none) line) lines := by
  obtain ⟨line, k, body, hl, hs, -⟩ := h
  have ho : line.opens?.isSome := by simp [opens?, hs, Statement.opens?]
  rw [along_cons, along_cons, and_iff_right (hQ _ line hl ho), and_iff_right (hQ _ line hl ho)]
  simp only [List.foldl_append, List.foldl_cons, next_of_enter hs]

theorem along_append_blocks {front : List Line} {blocks : List (List Line)}
    (hB : ∀ B ∈ blocks, Block B)
    (hQ : ∀ here line, line.labels = [] → line.opens?.isSome → Q here line) :
    Along (fun before line => Q (before.foldl next none) line) (front ++ blocks.flatten) ↔
      Along (fun before line => Q (before.foldl next none) line) front ∧
        ∀ B ∈ blocks, Along (fun before line => Q (before.foldl next none) line) B := by
  rw [along_append, ← List.flatMap_id, along_flatMap, ← along_const
    (p := fun B => Along (fun before line => Q (before.foldl next none) line) B)]
  refine and_congr_right fun _ => along_congr fun before B hmem => ?_
  simp only [← List.append_assoc, id]
  exact (hB B hmem).along_iff hQ _

theorem along_perm {front : List Line} {blocks blocks' : List (List Line)}
    (hB : ∀ B ∈ blocks, Block B) (hp : blocks.Perm blocks')
    (hQ : ∀ here line, line.labels = [] → line.opens?.isSome → Q here line)
    (h : Along (fun before line => Q (before.foldl next none) line) (front ++ blocks.flatten)) :
    Along (fun before line => Q (before.foldl next none) line) (front ++ blocks'.flatten) := by
  obtain ⟨hfront, hall⟩ := (along_append_blocks hB hQ).1 h
  refine (along_append_blocks (fun B hmem => hB B (hp.mem_iff.2 hmem)) hQ).2 ⟨hfront, ?_⟩
  exact fun B hmem => hall B (hp.mem_iff.2 hmem)

end

theorem perm_append_flatten (front : List Line) {blocks blocks' : List (List Line)}
    (hp : blocks.Perm blocks') : (front ++ blocks.flatten).Perm (front ++ blocks'.flatten) :=
  hp.flatten.append_left front

theorem not_occupies_of_opens? {line : Line} (h : line.opens?.isSome) : line.occupies = false := by
  unfold opens? at h
  unfold occupies
  cases hs : line.statement with
  | none => rfl
  | some s =>
    rw [hs] at h
    cases s with
    | enter k => rfl
    | _ => cases h

theorem reordered_blocks {front : List Line} {blocks blocks' : List (List Line)}
    (hB : ∀ B ∈ blocks, Block B) (hp : blocks.Perm blocks') :
    Reordered (front ++ blocks.flatten) (front ++ blocks'.flatten) where
  perm := perm_append_flatten front hp
  along_iff Q hQ := by
    have hopens : ∀ here line, line.labels = [] → line.opens?.isSome → Q here line :=
      fun here line hl ho => hQ here line hl (not_occupies_of_opens? ho)
    exact ⟨along_perm hB hp hopens,
      along_perm (fun B hmem => hB B (hp.mem_iff.2 hmem)) hp.symm hopens⟩

def extent? (lines : List Line) : Option Extent := (lines.foldl next none).map Place.extent

end Line

namespace Layout

variable {front : List Line} {blocks blocks' : List (List Line)} {l l' : Layout}

theorem Takes.extents_blocks
    (h : (start .empty).Takes ((front ++ blocks.flatten).flatMap Line.located) l)
    (hfront : ∀ line ∈ front, line.opens? = none) (hB : ∀ B ∈ blocks, Line.Block B) :
    l.extents.map some = blocks.map Line.extent? := by
  induction blocks using List.reverseRecOn generalizing l with
  | nil =>
    have hkinds := h.kinds_of_start
    rw [List.flatten_nil, List.append_nil, List.filterMap_eq_nil_iff.2 hfront,
      List.map_eq_nil_iff] at hkinds
    rw [hkinds]
    rfl
  | append_singleton blocks B ih =>
    rw [List.flatten_append, List.flatten_singleton, ← List.append_assoc] at h
    obtain ⟨m, h1, h2⟩ := takes_lines_append.1 h
    have hblock := hB B (List.mem_append_right _ List.mem_cons_self)
    have ih := ih h1 fun C hC => hB C (List.mem_append_left _ hC)
    have hplace : l.place = B.foldl Line.next none := by
      rw [← hblock.foldl_next m.place, h2.place, Line.map_snd_flatMap_located, ← Line.foldl_next]
    obtain ⟨line, k, body, -, hs, hb⟩ := hblock
    have ho : line.opens? = some k := by simp [Line.opens?, hs, Statement.opens?]
    obtain ⟨p, hp, -, hext⟩ := h2.extents_of_opens? ho hb
    have hlast : Line.extent? (line :: body) = some p.extent := by
      unfold Line.extent?
      rw [← hplace, hp]
      rfl
    rw [hext, List.map_append, List.map_append, ih, List.map_singleton, List.map_singleton, hlast]

end Layout

end SS16
