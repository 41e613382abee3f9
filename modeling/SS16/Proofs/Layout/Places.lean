import SS16.Proofs.Layout.Run

/-!
# SS16.Proofs.Layout.Places — the place and the sections along a layout

Where a step leaves the place depends on the step alone (`Step.next`), and so does the list of
sections that come up.  `extents` are the sections so far, the open one up to its place.  Main
statements: `Takes.place`, `Takes.kinds` (one section for each that is opened, in order),
`Takes.closed_prefix` (a finished section stays as it is) and `WellFormed.takes`.
-/

namespace SS16

namespace Step

/-- The place after a step that is not refused. -/
def next (here : Option Place) : Step → Option Place
  | .enter k => some (.start k)
  | .advance n => here.map fun p => (p.advance? n).getD p
  | .align n => here.map fun p => (p.align? n).getD p
  | .require _ | .set _ | .use _ | .share _ | .refuse _ => here

def opens? : Step → Option Section
  | .enter k => some k
  | .require _ | .set _ | .use _ | .share _ | .advance _ | .align _ | .refuse _ => none

theorem foldl_next_eq_self {xs : List Step} (h : ∀ s ∈ xs, ∀ here, s.next here = here)
    (here : Option Place) : xs.foldl next here = here := by
  induction xs with
  | nil => rfl
  | cons s xs ih =>
    rw [List.foldl_cons, h s List.mem_cons_self]
    exact ih fun t ht => h t (List.mem_cons_of_mem s ht)

end Step

namespace Place

theorem kind_of_advance? {p q : Place} {n : Nat} (h : p.advance? n = some q) : q.kind = p.kind :=
  (advance?_eq_some_iff.1 h).1

theorem kind_getD_advance? (p : Place) (n : Nat) : ((p.advance? n).getD p).kind = p.kind := by
  cases h : p.advance? n with
  | none => rfl
  | some q => exact kind_of_advance? h

theorem kind_getD_align? (p : Place) (n : UInt16) : ((p.align? n).getD p).kind = p.kind := by
  unfold align?
  cases alignUp p.location n <;> rfl

end Place

namespace Step

theorem kind_next (here : Option Place) (s : Step) :
    (s.next here).map Place.kind = s.opens?.or (here.map Place.kind) := by
  cases s with
  | advance n =>
    cases here with
    | none => rfl
    | some p => exact congrArg some (p.kind_getD_advance? n)
  | align n =>
    cases here with
    | none => rfl
    | some p => exact congrArg some (p.kind_getD_align? n)
  | _ => rfl

/-- The open section is the last one that was opened. -/
theorem kind_foldl_next (xs : List Step) (here : Option Place) :
    (xs.foldl next here).map Place.kind =
      (xs.filterMap opens?).getLast?.or (here.map Place.kind) := by
  induction xs generalizing here with
  | nil => rfl
  | cons s xs ih =>
    rw [List.foldl_cons, ih, kind_next, List.filterMap_cons]
    cases s.opens? with
    | none => rfl
    | some k =>
      rw [List.getLast?_cons]
      cases (xs.filterMap opens?).getLast? <;> rfl

end Step

namespace Layout

/-- The sections so far, the open one up to its place. -/
def extents (l : Layout) : List Extent := l.close.closed.toList

theorem extents_eq (l : Layout) :
    l.extents = l.closed.toList ++ (l.place.map Place.extent).toList := by
  unfold extents close
  cases l.place with
  | none => simp
  | some p => simp

theorem closed_prefix_extents (l : Layout) : l.closed.toList <+: l.extents :=
  ⟨_, (extents_eq l).symm⟩

theorem place_set (l : Layout) (n : String) : (l.set n).place = l.place := by
  unfold set
  cases hp : l.place with
  | none => exact hp
  | some p =>
    dsimp only
    split
    · rfl
    · exact hp

theorem closed_set (l : Layout) (n : String) : (l.set n).closed = l.closed := by
  unfold set
  split
  · rfl
  · split <;> rfl

theorem place_take (l : Layout) (s : Step) : (l.take s).place = s.next l.place := by
  cases s with
  | set n => exact place_set l n
  | use n =>
    show (l.use n).place = l.place
    unfold use
    split <;> rfl
  | share n =>
    show (l.share n).place = l.place
    unfold share
    split <;> rfl
  | _ => rfl

theorem closed_take {l : Layout} {s : Step} (h : s.opens? = none) :
    (l.take s).closed = l.closed := by
  cases s with
  | enter k => cases h
  | set n => exact closed_set l n
  | use n =>
    show (l.use n).closed = l.closed
    unfold use
    split <;> rfl
  | share n =>
    show (l.share n).closed = l.closed
    unfold share
    split <;> rfl
  | _ => rfl

theorem Takes.closed_eq {l l' : Layout} {xs : List (Nat × Step)} (h : l.Takes xs l')
    (hx : ∀ x ∈ xs, x.2.opens? = none) : l'.closed = l.closed :=
  h.preserves (P := fun m => m.closed = l.closed)
    (fun x hmem _ _ hm => (closed_take (hx x hmem)).trans hm) rfl

theorem closed_take_enter (l : Layout) (k : Section) :
    (l.take (.enter k)).closed.toList = l.extents := rfl

theorem kinds_take (l : Layout) (s : Step) :
    (l.take s).extents.map Extent.kind = l.extents.map Extent.kind ++ s.opens?.toList := by
  rw [extents_eq, place_take]
  cases hs : s.opens? with
  | some k =>
    cases s with
    | enter k' =>
      obtain rfl : k' = k := by simpa [Step.opens?] using hs
      rw [closed_take_enter, List.map_append]
      rfl
    | _ => cases hs
  | none =>
    rw [closed_take hs, extents_eq, List.map_append, List.map_append, Option.toList_none,
      List.append_nil, List.append_cancel_left_eq]
    -- the open section moves on, but stays the same one
    cases s with
    | enter k => cases hs
    | advance n =>
      cases l.place with
      | none => rfl
      | some p => exact congrArg (fun k => [k]) (p.kind_getD_advance? n)
    | align n =>
      cases l.place with
      | none => rfl
      | some p => exact congrArg (fun k => [k]) (p.kind_getD_align? n)
    | _ => rfl

theorem Takes.place {l l' : Layout} {xs : List (Nat × Step)} (h : l.Takes xs l') :
    l'.place = (xs.map Prod.snd).foldl Step.next l.place := by
  induction xs generalizing l with
  | nil => exact takes_nil.1 h ▸ rfl
  | cons x xs ih =>
    obtain ⟨-, h⟩ := takes_cons.1 h
    rw [ih h, place_take]
    rfl

theorem Takes.place_eq_self {l l' : Layout} {row : Nat} {xs : List Step}
    (h : l.Takes (xs.map (row, ·)) l') (hx : ∀ s ∈ xs, ∀ here, s.next here = here) :
    l'.place = l.place := by
  have hsteps : (xs.map (row, ·)).map Prod.snd = xs := by
    rw [List.map_map]
    exact List.map_id xs
  rw [h.place, hsteps, Step.foldl_next_eq_self hx]

theorem Takes.kinds {l l' : Layout} {xs : List (Nat × Step)} (h : l.Takes xs l') :
    l'.extents.map Extent.kind =
      l.extents.map Extent.kind ++ (xs.map Prod.snd).filterMap Step.opens? := by
  induction xs generalizing l with
  | nil =>
    obtain rfl := takes_nil.1 h
    simp
  | cons x xs ih =>
    obtain ⟨-, h⟩ := takes_cons.1 h
    rw [ih h, kinds_take, List.append_assoc, List.map_cons, List.filterMap_cons]
    cases x.2.opens? <;> rfl

theorem Takes.closed_prefix {l l' : Layout} {xs : List (Nat × Step)} (h : l.Takes xs l') :
    l.closed.toList <+: l'.closed.toList := by
  refine h.preserves (P := fun m => l.closed.toList <+: m.closed.toList) (fun x _ m _ hm => ?_)
    (List.prefix_refl _)
  generalize x.2 = s
  cases hs : s.opens? with
  | none =>
    rw [closed_take hs]
    exact hm
  | some k =>
    cases s with
    | enter k' => exact hm.trans (closed_take_enter m k' ▸ closed_prefix_extents m)
    | _ => cases hs

/-! ### Sections and their entries -/

/-- The sections so far are different ones and have their entries; all other entries belong to
names, and what is defined is defined in one of the sections. -/
structure WellFormed (l : Layout) : Prop where
  nodup : (l.extents.map Extent.kind).Nodup
  get? : ∀ k ∈ l.extents.map Extent.kind, l.symbols.get? k.name = some (.ofSection k)
  named : ∀ s ∈ l.symbols.toList, Identifier.isValid s.name ∨ ∃ k, s = .ofSection k
  home : ∀ s ∈ l.symbols.toList, ∀ k, s.home = some k → k ∈ l.extents.map Extent.kind

theorem wellFormed_start : (start .empty).WellFormed where
  nodup := List.nodup_nil
  get? k hk := by cases hk
  named s hs := by cases hs
  home s hs := by cases hs

theorem mem_kinds_of_place {l : Layout} {p : Place} (h : l.place = some p) :
    p.kind ∈ l.extents.map Extent.kind := by
  rw [extents_eq, h, List.map_append]
  exact List.mem_append_right _ (List.mem_singleton.2 rfl)

theorem WellFormed.get?_insert {l : Layout} (h : l.WellFormed) {q : Symbol}
    (hq : Identifier.isValid q.name) {k : Section} (hk : k ∈ l.extents.map Extent.kind) :
    (l.symbols.insert q).get? k.name = some (.ofSection k) := by
  rw [SymbolTable.get?_insert_of_ne]
  · exact h.get? k hk
  · intro he
    rw [he, Section.isValid_name] at hq
    cases hq

theorem WellFormed.insert_name {l m : Layout} (h : l.WellFormed) {q : Symbol}
    (hm : m.symbols = l.symbols.insert q)
    (hk : m.extents.map Extent.kind = l.extents.map Extent.kind)
    (hq : Identifier.isValid q.name) (hh : ∀ k, q.home = some k → k ∈ l.extents.map Extent.kind) :
    m.WellFormed := by
  refine ⟨?_, ?_, ?_, ?_⟩
  · rw [hk]
    exact h.nodup
  · intro k hmem
    rw [hm]
    exact h.get?_insert hq (hk ▸ hmem)
  · intro s hs
    rw [hm, SymbolTable.mem_insert] at hs
    rcases hs with rfl | ⟨hs, -⟩
    · exact .inl hq
    · exact h.named s hs
  · intro s hs k hsk
    rw [hm, SymbolTable.mem_insert] at hs
    rw [hk]
    rcases hs with rfl | ⟨hs, -⟩
    · exact hh k hsk
    · exact h.home s hs k hsk

theorem WellFormed.insert_section {l m : Layout} (h : l.WellFormed) {k : Section}
    (hm : m.symbols = l.symbols.insert (.ofSection k))
    (hk : m.extents.map Extent.kind = l.extents.map Extent.kind ++ [k])
    (hnone : l.symbols.get? k.name = none) : m.WellFormed := by
  have hnew : k ∉ l.extents.map Extent.kind := by
    intro hmem
    simp [h.get? k hmem] at hnone
  refine ⟨?_, ?_, ?_, ?_⟩
  · rw [hk, List.nodup_append]
    refine ⟨h.nodup, by simp, ?_⟩
    rintro a ha b hb rfl
    exact hnew (List.mem_singleton.1 hb ▸ ha)
  · intro j hj
    rw [hm]
    by_cases hjk : k = j
    · subst hjk
      exact SymbolTable.get?_insert_self _ (.ofSection k)
    · rw [SymbolTable.get?_insert_of_ne fun he => hjk (Section.name_inj.1 he)]
      rw [hk, List.mem_append, List.mem_singleton] at hj
      exact h.get? j (hj.resolve_right fun he => hjk he.symm)
  · intro s hs
    rw [hm, SymbolTable.mem_insert] at hs
    rcases hs with rfl | ⟨hs, -⟩
    · exact .inr ⟨k, rfl⟩
    · exact h.named s hs
  · intro s hs j hj
    rw [hm, SymbolTable.mem_insert] at hs
    rw [hk]
    rcases hs with rfl | ⟨hs, -⟩
    · obtain rfl : k = j := Option.some.inj hj
      exact List.mem_append_right _ (List.mem_singleton.2 rfl)
    · exact List.mem_append_left _ (h.home s hs j hj)

theorem WellFormed.take {l : Layout} {s : Step} (h : l.WellFormed) (hs : l.refusal? s = none)
    (hn : ∀ n, s.name? = some n → Identifier.isValid n) : (l.take s).WellFormed := by
  have hkinds := kinds_take l s
  have hchange := take_change hs
  generalize hm : l.take s = m at hkinds hchange ⊢
  generalize ht : m.symbols = t at hchange
  generalize m.next = count at hchange
  have hsame : s.opens? = none → m.extents.map Extent.kind = l.extents.map Extent.kind := by
    intro ho
    rw [hkinds, ho]
    exact List.append_nil _
  have hnamed : ∀ n, s.name? = some n → s.opens? = none := by
    intro n hsn
    cases s with
    | enter k => cases hsn
    | _ => rfl
  cases hchange with
  | keep _ hne =>
    have hopens : s.opens? = none := by
      cases s with
      | enter k => exact absurd rfl (hne k)
      | _ => rfl
    have hk := hsame hopens
    refine ⟨hk ▸ h.nodup, ?_, ht ▸ h.named, ?_⟩
    · rw [hk, ht]
      exact h.get?
    · rw [hk, ht]
      exact h.home
  | complete r q hsn hr hl home =>
    refine h.insert_name ht (hsame (hnamed _ hsn)) (hl.name ▸ hn _ hsn) fun k hk => ?_
    rcases home with home | ⟨p, hp, home⟩
    · exact h.home r (SymbolTable.mem_of_get? hr) k (home ▸ hk)
    · obtain rfl : p.kind = k := Option.some.inj (home.symm.trans hk)
      exact mem_kinds_of_place hp
  | add r hsn hr _ home =>
    refine h.insert_name ht (hsame (hnamed _ hsn)) (hn _ hsn) fun k hk => ?_
    rcases home with home | ⟨p, hp, home⟩
    · simp [home] at hk
    · obtain rfl : p.kind = k := Option.some.inj (home.symm.trans hk)
      exact mem_kinds_of_place hp
  | enter k hk hnone =>
    subst hk
    exact h.insert_section ht hkinds hnone

theorem WellFormed.takes {l l' : Layout} {xs : List (Nat × Step)} (h : l.WellFormed)
    (hx : l.Takes xs l') (hn : ∀ x ∈ xs, ∀ n, x.2.name? = some n → Identifier.isValid n) :
    l'.WellFormed :=
  hx.preserves (fun x hmem _ hs hm => hm.take hs (hn x hmem)) h

end Layout

end SS16
