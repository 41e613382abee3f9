import SS16.Proofs.Along
import SS16.Proofs.Layout.Numbers

/-!
# SS16.Proofs.Layout.Admission — which steps are taken, and what they leave behind

Whether a step is taken from the empty table on can be told from the steps in front of it alone
(`Step.Admitted`), and so can what its name has come to (`Symbol.Tells`).  Main statements:
`exists_takes_start_iff`, `Takes.tells` and `Takes.unresolved?_eq_none_iff`.
-/

namespace SS16

namespace Step

def needsPlace : Step → Bool
  | .require _ | .set _ => true
  | .enter _ | .use _ | .share _ | .advance _ | .align _ | .refuse _ => false

def set? : Step → Option String
  | .set n => some n
  | .require _ | .enter _ | .use _ | .share _ | .advance _ | .align _ | .refuse _ => none

/-- Where a step moves a place to, if it can. -/
def move? (p : Place) : Step → Option Place
  | .advance n => p.advance? n
  | .align n => p.align? n
  | .require _ | .enter _ | .set _ | .use _ | .share _ | .refuse _ => some p

def Fits (here : Option Place) (s : Step) : Prop :=
  ∀ p, here = some p → (s.move? p).isSome

/-- What a step has to meet, told from the steps in front of it. -/
structure Admitted (before : List Step) (s : Step) : Prop where
  placed : s.needsPlace → before.filterMap opens? ≠ []
  sections : ∀ k, s.opens? = some k → k ∉ before.filterMap opens?
  labels : ∀ n, s.set? = some n → n ∉ before.filterMap set?
  fits : s.Fits (before.foldl next none)
  accepted : ∀ f, s ≠ .refuse f

theorem set?_eq_some_iff {s : Step} {n : String} : s.set? = some n ↔ s = .set n := by
  cases s <;> simp [set?]

theorem mem_filterMap_set? {xs : List Step} {n : String} :
    n ∈ xs.filterMap set? ↔ Step.set n ∈ xs := by
  rw [List.mem_filterMap]
  constructor
  · rintro ⟨s, hs, hn⟩
    exact set?_eq_some_iff.1 hn ▸ hs
  · intro h
    exact ⟨_, h, rfl⟩

theorem isSome_foldl_next (xs : List Step) :
    (xs.foldl next none).isSome ↔ xs.filterMap opens? ≠ [] := by
  rw [← Option.isSome_map, kind_foldl_next, Option.map_none, Option.or_none,
    List.getLast?_isSome]

/-- What a step makes of the entry of its name, at a place. -/
def touch (here : Option Place) (s : Step) (x : Symbol) : Symbol :=
  match s, here with
  | .set _, some p => { x with home := some p.kind, offset := p.location }
  | .share _, _ => { x with binding := .global }
  | _, _ => x

end Step

/-- What the entry of a name tells of the steps that brought it up: it is defined if one of them sets
the name and global if one of them shares it. -/
structure Symbol.Tells (n : String) (xs : List Step) (s : Symbol) : Prop where
  isDefined : s.isDefined ↔ Step.set n ∈ xs
  isGlobal : s.isGlobal ↔ Step.share n ∈ xs
  offset : s.isDefined = false → s.offset = 0

namespace Symbol

theorem tells_undefined {n : String} {xs : List Step} (h : n ∉ xs.filterMap Step.name?)
    (number : UInt16) : (undefined n .internal number).Tells n xs := by
  have hnot : ∀ s : Step, s.name? = some n → s ∉ xs := fun s hs hmem =>
    h (List.mem_filterMap.2 ⟨s, hmem, hs⟩)
  refine ⟨⟨fun hd => ?_, fun hs => absurd hs (hnot _ rfl)⟩,
    ⟨fun hg => ?_, fun hs => absurd hs (hnot _ rfl)⟩, fun _ => rfl⟩
  · cases hd
  · cases hg

theorem Tells.append_of_ne {n : String} {xs : List Step} {s : Symbol} (h : s.Tells n xs) {t : Step}
    (ht : t.name? ≠ some n) : s.Tells n (xs ++ [t]) := by
  refine ⟨h.isDefined.trans ?_, h.isGlobal.trans ?_, h.offset⟩
  · rw [List.mem_append, List.mem_singleton, or_iff_left]
    rintro rfl
    exact ht rfl
  · rw [List.mem_append, List.mem_singleton, or_iff_left]
    rintro rfl
    exact ht rfl

theorem Tells.touch {n : String} {xs : List Step} {s : Symbol} (h : s.Tells n xs) {t : Step}
    (ht : t.name? = some n) {here : Option Place} (hp : t.needsPlace → here.isSome) :
    (t.touch here s).Tells n (xs ++ [t]) := by
  cases t with
  | set m =>
    obtain rfl : m = n := Option.some.inj ht
    obtain ⟨p, rfl⟩ := Option.isSome_iff_exists.1 (hp rfl)
    refine ⟨by simp [Step.touch, Symbol.isDefined], ?_, fun hd => by cases hd⟩
    rw [List.mem_append, List.mem_singleton, or_iff_left (by simp)]
    exact h.isGlobal
  | share m =>
    obtain rfl : m = n := Option.some.inj ht
    refine ⟨?_, by simp [Step.touch, Symbol.isGlobal], h.offset⟩
    rw [List.mem_append, List.mem_singleton, or_iff_left (by simp)]
    exact h.isDefined
  | use m =>
    refine ⟨?_, ?_, h.offset⟩
    · rw [List.mem_append, List.mem_singleton, or_iff_left (by simp)]
      exact h.isDefined
    · rw [List.mem_append, List.mem_singleton, or_iff_left (by simp)]
      exact h.isGlobal
  | _ => cases ht

end Symbol

theorem Step.name_touch (here : Option Place) (s : Step) (x : Symbol) :
    (s.touch here x).name = x.name := by
  unfold touch
  split <;> rfl

namespace Layout

/-- The entry of a name, or the one that it gets when it comes up now. -/
def entryOr (l : Layout) (n : String) : Symbol :=
  (l.symbols.get? n).getD (.undefined n .internal l.next)

theorem name_entryOr (l : Layout) (n : String) : (l.entryOr n).name = n := by
  unfold entryOr
  cases hn : l.symbols.get? n with
  | none => rfl
  | some x => exact SymbolTable.name_of_get? hn

theorem get?_take_of_name {l : Layout} {s : Step} (h : l.refusal? s = none) {m : String}
    (hm : s.name? = some m) (n : String) :
    (l.take s).symbols.get? n = (l.symbols.insert (s.touch l.place (l.entryOr m))).get? n := by
  unfold entryOr
  cases s with
  | set m =>
    obtain rfl := Option.some.inj hm
    cases hp : l.place with
    | none => simp [refusal?, hp] at h
    | some p =>
      simp only [take, set, hp]
      cases hx : l.symbols.get? m with
      | none =>
        rw [if_neg (by simp [SymbolTable.contains, hx])]
        rfl
      | some x =>
        rw [if_pos (by simp [SymbolTable.contains, hx])]
        dsimp only
        rw [SymbolTable.define_of_get? hx]
        rfl
  | use m =>
    obtain rfl := Option.some.inj hm
    simp only [take, use]
    cases hx : l.symbols.get? m with
    | none =>
      rw [if_neg (by simp [SymbolTable.contains, hx])]
      rfl
    | some x =>
      rw [if_pos (by simp [SymbolTable.contains, hx])]
      show _ = (l.symbols.insert x).get? n
      rw [SymbolTable.get?_insert, SymbolTable.name_of_get? hx]
      split_ifs with hmn
      · rw [← hmn, hx]
      · rfl
  | share m =>
    obtain rfl := Option.some.inj hm
    simp only [take, share]
    cases hx : l.symbols.get? m with
    | none =>
      rw [if_neg (by simp [SymbolTable.contains, hx])]
      rfl
    | some x =>
      rw [if_pos (by simp [SymbolTable.contains, hx])]
      dsimp only
      rw [SymbolTable.rebind_of_get? hx]
      rfl
  | _ => cases hm

/-- A step touches the entry of its name, which it makes if there is none, and no other name's. -/
theorem get?_take {l : Layout} {s : Step} (h : l.refusal? s = none) {n : String}
    (hn : Identifier.isValid n) :
    (l.take s).symbols.get? n =
      if s.name? = some n then some (s.touch l.place (l.entryOr n)) else l.symbols.get? n := by
  cases hs : s.name? with
  | some m =>
    rw [get?_take_of_name h hs, SymbolTable.get?_insert, Step.name_touch, name_entryOr]
    by_cases hmn : m = n
    · rw [hmn, if_pos rfl, if_pos rfl]
    · rw [if_neg hmn, if_neg fun he => hmn (Option.some.inj he)]
  | none =>
    rw [if_neg (by simp)]
    cases s with
    | enter k =>
      show (l.close.symbols.insert (.ofSection k)).get? n = _
      rw [SymbolTable.get?_insert_of_ne, close_symbols]
      rintro rfl
      rw [show (Symbol.ofSection k).name = k.name from rfl, Section.isValid_name] at hn
      cases hn
    | set m | use m | share m => cases hs
    | _ => rfl

theorem takes_concat {l l' : Layout} {xs : List (Nat × Step)} {x : Nat × Step} :
    l.Takes (xs ++ [x]) l' ↔ ∃ m, l.Takes xs m ∧ m.refusal? x.2 = none ∧ m.take x.2 = l' := by
  simp [takes_append]

theorem isSome_place_of_needsPlace {l : Layout} {s : Step} (h : l.refusal? s = none)
    (hs : s.needsPlace) : l.place.isSome := by
  cases hp : l.place with
  | some p => rfl
  | none =>
    cases s with
    | require what => simp [refusal?, hp] at h
    | set n => simp [refusal?, hp] at h
    | _ => cases hs

/-- What has become of a name: it has an entry if a step brought it up, and the entry tells how. -/
theorem Takes.tells {xs : List (Nat × Step)} {l : Layout} (h : (start .empty).Takes xs l)
    {n : String} (hn : Identifier.isValid n) :
    (l.symbols.get? n = none ∧ n ∉ (xs.map Prod.snd).filterMap Step.name?) ∨
      ∃ s, l.symbols.get? n = some s ∧ n ∈ (xs.map Prod.snd).filterMap Step.name? ∧
        s.Tells n (xs.map Prod.snd) := by
  -- by induction on the last step, since an entry tells of all steps in front of it
  induction xs using List.reverseRecOn generalizing l with
  | nil =>
    obtain rfl := takes_nil.1 h
    exact .inl ⟨rfl, List.not_mem_nil⟩
  | append_singleton xs x ih =>
    obtain ⟨m, hm, hr, rfl⟩ := takes_concat.1 h
    rw [List.map_append, List.map_singleton, List.filterMap_append, List.mem_append, get?_take hr hn]
    have hlast : n ∈ [x.2].filterMap Step.name? ↔ x.2.name? = some n := by
      rw [List.mem_filterMap]
      simp
    rw [hlast]
    by_cases hx : x.2.name? = some n
    · rw [if_pos hx]
      refine .inr ⟨_, rfl, .inr hx, ?_⟩
      refine Symbol.Tells.touch ?_ hx (isSome_place_of_needsPlace hr)
      unfold entryOr
      rcases ih hm with ⟨hnone, hmem⟩ | ⟨s, hs, -, htells⟩
      · rw [hnone]
        exact Symbol.tells_undefined hmem m.next
      · rw [hs]
        exact htells
    · rw [if_neg hx]
      rcases ih hm with ⟨hnone, hmem⟩ | ⟨s, hs, hmem, htells⟩
      · exact .inl ⟨hnone, not_or.2 ⟨hmem, hx⟩⟩
      · exact .inr ⟨s, hs, .inl hmem, htells.append_of_ne hx⟩

variable {xs : List (Nat × Step)} {l : Layout}

theorem Takes.any_isDefined_iff (h : (start .empty).Takes xs l) {n : String}
    (hn : Identifier.isValid n) :
    (l.symbols.get? n).any Symbol.isDefined ↔ Step.set n ∈ xs.map Prod.snd := by
  rcases h.tells hn with ⟨hnone, hmem⟩ | ⟨s, hs, -, htells⟩
  · rw [hnone]
    refine ⟨fun hd => absurd hd (by simp), fun hset => ?_⟩
    exact (hmem (List.mem_filterMap.2 ⟨_, hset, rfl⟩)).elim
  · rw [hs]
    exact htells.isDefined

theorem WellFormed.contains_section_iff (h : l.WellFormed) (k : Section) :
    l.symbols.contains k.name ↔ k ∈ l.extents.map Extent.kind := by
  constructor
  · intro hc
    obtain ⟨s, hs⟩ := SymbolTable.contains_iff.1 hc
    obtain ⟨hmem, hname⟩ := SymbolTable.get?_eq_some_iff.1 hs
    rcases h.named s hmem with hv | ⟨j, rfl⟩
    · rw [hname, Section.isValid_name] at hv
      cases hv
    · rw [← Section.name_inj.1 hname]
      exact h.home _ hmem j rfl
  · intro hk
    exact SymbolTable.contains_iff.2 ⟨_, h.get? k hk⟩

theorem moveRefusal?_eq_none_iff {f : Place → Option Place} :
    l.moveRefusal? f = none ↔ ∀ p, l.place = some p → (f p).isSome := by
  unfold moveRefusal?
  cases l.place with
  | none => simp
  | some p => cases hf : f p <;> simp [hf]

/-- A step is refused or not for what stands in front of it. -/
theorem Takes.refusal?_eq_none_iff (h : (start .empty).Takes xs l)
    (hnames : ∀ x ∈ xs, ∀ n, x.2.name? = some n → Identifier.isValid n) {s : Step}
    (hs : ∀ n, s.name? = some n → Identifier.isValid n) :
    l.refusal? s = none ↔ s.Admitted (xs.map Prod.snd) := by
  have hplace : l.place = (xs.map Prod.snd).foldl Step.next none := h.place
  have hopen : l.place.isSome ↔ (xs.map Prod.snd).filterMap Step.opens? ≠ [] :=
    hplace ▸ Step.isSome_foldl_next (xs.map Prod.snd)
  constructor
  · intro hr
    refine ⟨fun hn => hopen.1 (isSome_place_of_needsPlace hr hn), ?_, ?_, ?_, ?_⟩
    · intro k hk hmem
      cases s with
      | enter j =>
        obtain rfl : j = k := Option.some.inj hk
        have hc : l.symbols.contains j.name := by
          rw [(wellFormed_start.takes h hnames).contains_section_iff, h.kinds]
          exact List.mem_append_right _ hmem
        simp [refusal?, hc] at hr
      | _ => cases hk
    · intro n hn hmem
      obtain rfl := Step.set?_eq_some_iff.1 hn
      have hd := (h.any_isDefined_iff (hs n rfl)).2 (Step.mem_filterMap_set?.1 hmem)
      cases hp : l.place <;> simp [refusal?, hp, hd] at hr
    · rw [← hplace]
      cases s with
      | advance n => exact moveRefusal?_eq_none_iff.1 hr
      | align n => exact moveRefusal?_eq_none_iff.1 hr
      | _ => exact fun _ _ => rfl
    · rintro f rfl
      cases hr
  · intro ha
    have hfits := hplace ▸ ha.fits
    cases s with
    | require what => simp [refusal?, hopen.2 (ha.placed rfl)]
    | enter k =>
      have hc : ¬ l.symbols.contains k.name := by
        rw [(wellFormed_start.takes h hnames).contains_section_iff, h.kinds]
        exact ha.sections k rfl
      exact if_neg hc
    | set n =>
      have hp := hopen.2 (ha.placed rfl)
      have hd : ¬ (l.symbols.get? n).any Symbol.isDefined := by
        rw [h.any_isDefined_iff (hs n rfl), ← Step.mem_filterMap_set?]
        exact ha.labels n rfl
      rw [refusal?, if_neg (by simpa [Option.isSome_iff_ne_none] using hp), if_neg hd]
    | use n => rfl
    | share n => rfl
    | advance n => exact moveRefusal?_eq_none_iff.2 hfits
    | align n => exact moveRefusal?_eq_none_iff.2 hfits
    | refuse f => exact absurd rfl (ha.accepted f)

/-- From the empty table on, all steps are taken exactly if each of them is admitted after those in
front of it. -/
theorem exists_takes_start_iff
    (hnames : ∀ x ∈ xs, ∀ n, x.2.name? = some n → Identifier.isValid n) :
    (∃ l, (start .empty).Takes xs l) ↔ Along Step.Admitted (xs.map Prod.snd) := by
  induction xs using List.reverseRecOn with
  | nil => simp [along_nil]
  | append_singleton xs x ih =>
    have ih := ih fun y hy => hnames y (List.mem_append_left _ hy)
    rw [List.map_append, List.map_singleton, along_concat, ← ih]
    constructor
    · rintro ⟨l, hl⟩
      obtain ⟨m, hm, hr, -⟩ := takes_concat.1 hl
      refine ⟨⟨m, hm⟩, (hm.refusal?_eq_none_iff ?_ ?_).1 hr⟩
      · exact fun y hy => hnames y (List.mem_append_left _ hy)
      · exact hnames x (List.mem_append_right _ List.mem_cons_self)
    · rintro ⟨⟨m, hm⟩, ha⟩
      refine ⟨_, takes_concat.2 ⟨m, hm, (hm.refusal?_eq_none_iff ?_ ?_).2 ha, rfl⟩⟩
      · exact fun y hy => hnames y (List.mem_append_left _ hy)
      · exact hnames x (List.mem_append_right _ List.mem_cons_self)

/-- A name is left without a meaning exactly if it is used and neither set nor shared. -/
theorem Takes.unresolved?_eq_none_iff (h : (start .empty).Takes xs l)
    (hnames : ∀ x ∈ xs, ∀ n, x.2.name? = some n → Identifier.isValid n) :
    unresolved? l.symbols = none ↔
      ∀ n, Step.use n ∈ xs.map Prod.snd →
        Step.set n ∈ xs.map Prod.snd ∨ Step.share n ∈ xs.map Prod.snd := by
  have hvalid : ∀ {s : Step} {n}, s ∈ xs.map Prod.snd → s.name? = some n →
      Identifier.isValid n := by
    intro s n hs hn
    obtain ⟨x, hx, rfl⟩ := List.mem_map.1 hs
    exact hnames x hx n hn
  constructor
  · intro hu n hn
    rcases h.tells (hvalid hn rfl) with ⟨-, hmem⟩ | ⟨s, hs, -, htells⟩
    · exact (hmem (List.mem_filterMap.2 ⟨_, hn, rfl⟩)).elim
    · rw [← htells.isDefined, ← htells.isGlobal]
      have := List.find?_eq_none.1 hu s (SymbolTable.mem_of_get? hs)
      revert this
      cases s.isDefined <;> simp
  · intro huse
    refine List.find?_eq_none.2 fun s hs => ?_
    rcases (wellFormed_start.takes h hnames).named s hs with hv | ⟨k, rfl⟩
    · rcases h.tells hv with ⟨hnone, -⟩ | ⟨r, hr, hmem, htells⟩
      · rw [SymbolTable.get?_of_mem hs] at hnone
        cases hnone
      · obtain rfl := Option.some.inj ((SymbolTable.get?_of_mem hs).symm.trans hr)
        -- the step that brought the name up sets it, shares it or uses it
        have hmeant : Step.set s.name ∈ xs.map Prod.snd ∨ Step.share s.name ∈ xs.map Prod.snd := by
          obtain ⟨t, ht, htn⟩ := List.mem_filterMap.1 hmem
          cases t with
          | set n => exact .inl (Option.some.inj htn ▸ ht)
          | share n => exact .inr (Option.some.inj htn ▸ ht)
          | use n => exact huse _ (Option.some.inj htn ▸ ht)
          | _ => cases htn
        rw [← htells.isDefined, ← htells.isGlobal] at hmeant
        rcases hmeant with hd | hg
        · simp [hd]
        · simp [hg]
    · simp [Symbol.isDefined, Symbol.ofSection, Symbol.defined]

end Layout

end SS16
