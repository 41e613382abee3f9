import SS16.Proofs.Emission.Fragments

/-!
# SS16.Proofs.Layout.Splitting — steps of data in two parts

Steps that do not look at what the other one changes can be taken in either order, so the steps of two
parts of data can be put together: a section is required once, and the place moves once.  Main
statements: `Layout.takes_move` and `Layout.takes_data_append`.
-/

namespace SS16

namespace Place

theorem advance?_add (p : Place) (m n : Nat) :
    p.advance? (m + n) = (p.advance? m).bind (·.advance? n) := by
  refine Option.ext fun q => ?_
  rw [Option.bind_eq_some_iff, advance?_eq_some_iff]
  constructor
  · rintro ⟨hk, hl⟩
    have hq : q.location.toNat < UInt16.size := q.location.toNat_lt
    have hlt : p.location.toNat + m < UInt16.size := by omega
    refine ⟨⟨p.kind, UInt16.ofNat (p.location.toNat + m)⟩, ?_, ?_⟩
    · exact advance?_eq_some_iff.2 ⟨rfl, UInt16.toNat_ofNat_of_lt' hlt⟩
    · refine advance?_eq_some_iff.2 ⟨hk, ?_⟩
      rw [UInt16.toNat_ofNat_of_lt' hlt, hl, Nat.add_assoc]
  · rintro ⟨r, hr, hq⟩
    obtain ⟨hk, hl⟩ := advance?_eq_some_iff.1 hr
    obtain ⟨hk', hl'⟩ := advance?_eq_some_iff.1 hq
    exact ⟨hk'.trans hk, by omega⟩

end Place

/-- Two steps neither of which looks at what the other one changes. -/
structure Step.Independent (s t : Step) : Prop where
  refusal_left : ∀ l : Layout, (l.take t).refusal? s = l.refusal? s
  refusal_right : ∀ l : Layout, (l.take s).refusal? t = l.refusal? t
  take_take : ∀ l : Layout, (l.take s).take t = (l.take t).take s

namespace Layout

variable {l l' : Layout} {x y : Nat × Step} {xs ys zs : List (Nat × Step)}

theorem takes_swap (h : x.2.Independent y.2) (xs : List (Nat × Step)) :
    l.Takes (x :: y :: xs) l' ↔ l.Takes (y :: x :: xs) l' := by
  rw [takes_cons, takes_cons, takes_cons, takes_cons, h.refusal_left, h.refusal_right, h.take_take,
    and_left_comm]

/-- A step can be taken later, behind steps that do not depend on it. -/
theorem takes_move (h : ∀ y ∈ ys, x.2.Independent y.2) (xs : List (Nat × Step)) :
    l.Takes (x :: (ys ++ xs)) l' ↔ l.Takes (ys ++ x :: xs) l' := by
  induction ys generalizing l with
  | nil => exact Iff.rfl
  | cons y ys ih =>
    have hrest := ih (l := l.take y.2) fun z hz => h z (List.mem_cons_of_mem y hz)
    show l.Takes (x :: y :: (ys ++ xs)) l' ↔ l.Takes (y :: (ys ++ x :: xs)) l'
    rw [takes_swap (h y List.mem_cons_self), takes_cons, hrest, takes_cons]

theorem takes_append_congr (h : ∀ m : Layout, m.Takes ys l' ↔ m.Takes zs l')
    (xs : List (Nat × Step)) : l.Takes (xs ++ ys) l' ↔ l.Takes (xs ++ zs) l' := by
  rw [takes_append, takes_append]
  exact exists_congr fun m => and_congr_right fun _ => h m

theorem takes_require_twice (i j : Nat) (u v : String) (xs : List (Nat × Step)) :
    l.Takes ((i, .require u) :: (j, .require v) :: xs) l' ↔ l.Takes ((i, .require u) :: xs) l' := by
  rw [takes_cons, takes_cons, takes_cons]
  refine and_congr_right fun hu => and_iff_right ?_
  show (if l.place.isSome then none else _) = none
  have hu : (if l.place.isSome then none else some (Fault.outsideSection u)) = none := hu
  split_ifs at hu ⊢
  rfl

theorem takes_advance_twice (i j : Nat) (m n : Nat) (xs : List (Nat × Step)) :
    l.Takes ((i, .advance m) :: (j, .advance n) :: xs) l' ↔
      l.Takes ((i, .advance (m + n)) :: xs) l' := by
  rw [takes_cons, takes_cons, takes_cons, ← and_assoc]
  show ((l.moveRefusal? (·.advance? m) = none ∧ (l.move _).moveRefusal? (·.advance? n) = none) ∧
      ((l.move (·.advance? m)).move (·.advance? n)).Takes xs l') ↔
    l.moveRefusal? (·.advance? (m + n)) = none ∧ (l.move (·.advance? (m + n))).Takes xs l'
  unfold moveRefusal? move
  cases l.place with
  | none => simp
  | some p =>
    have hsum := p.advance?_add m n
    cases hm : p.advance? m with
    | none =>
      rw [hm] at hsum
      simp [hm, hsum]
    | some q =>
      rw [hm] at hsum
      cases hq : q.advance? n <;> simp [hm, hq, hsum]

end Layout

/-! ### Data -/

namespace Statement

theorem independent_of_mem_dataSteps {w : Width} {args : List String} {t : Step}
    (h : t ∈ args.filterMap (dataStep w)) :
    (∀ n, Step.Independent (.advance n) t) ∧ ∀ what, Step.Independent (.require what) t := by
  obtain ⟨arg, -, harg⟩ := List.mem_filterMap.1 h
  unfold dataStep at harg
  split_ifs at harg with hn hv
  · cases harg
    have hplace : ∀ l : Layout, (l.use arg).place = l.place := fun l => Layout.place_take l (.use arg)
    constructor
    · refine fun n => ⟨fun l => ?_, fun l => rfl, fun l => ?_⟩
      · show (l.use arg).moveRefusal? _ = l.moveRefusal? _
        unfold Layout.moveRefusal?
        rw [hplace]
      · show (l.move _).use arg = (l.use arg).move _
        unfold Layout.use Layout.move
        dsimp only
        split_ifs <;> rfl
    · refine fun what => ⟨fun l => ?_, fun l => rfl, fun l => rfl⟩
      show (if (l.use arg).place.isSome then none else _) = if l.place.isSome then none else _
      rw [hplace]
  · cases harg
    exact ⟨fun n => ⟨fun l => rfl, fun l => rfl, fun l => rfl⟩,
      fun what => ⟨fun l => rfl, fun l => rfl, fun l => rfl⟩⟩

theorem independent_advance_require (n : Nat) (what : String) :
    Step.Independent (.advance n) (.require what) where
  refusal_left l := rfl
  refusal_right l := by
    show (if (l.move _).place.isSome then none else _) = if l.place.isSome then none else _
    unfold Layout.move
    rw [Option.isSome_map]
  take_take l := rfl

end Statement

/-- Data is laid out as its two parts one behind the other are. -/
theorem Layout.takes_data_append {w : Width} {a b : List String}
    (hsize : (a ++ b).length * w.size < 2 ^ 32) (row : Nat) {l l' : Layout} :
    l.Takes ((Statement.data w (a ++ b)).steps.map (row, ·)) l' ↔
      l.Takes (((Statement.data w a).steps ++ (Statement.data w b).steps).map (row, ·)) l' := by
  have hadd : (Statement.dataSize w (a ++ b).length).toNat =
      (Statement.dataSize w a.length).toNat + (Statement.dataSize w b.length).toNat := by
    rw [List.length_append, Nat.add_mul] at hsize
    rw [List.length_append, Statement.toNat_dataSize, Statement.toNat_dataSize (by omega),
      Statement.toNat_dataSize (by omega), Nat.add_mul]
    rwa [Nat.add_mul]
  unfold Statement.steps
  dsimp only
  rw [hadd, List.filterMap_append]
  generalize (Statement.dataSize w a.length).toNat = m
  generalize (Statement.dataSize w b.length).toNat = n
  have hpart : ∀ {args : List String}, ∀ y ∈ (args.filterMap (Statement.dataStep w)).map (row, ·),
      (∀ n, Step.Independent (.advance n) y.2) ∧ ∀ what, Step.Independent (.require what) y.2 := by
    intro args y hy
    obtain ⟨t, ht, rfl⟩ := List.mem_map.1 hy
    exact Statement.independent_of_mem_dataSteps ht
  simp only [List.map_append, List.map_cons, List.map_nil, List.append_assoc, List.cons_append,
    List.nil_append]
  generalize hA : (a.filterMap (Statement.dataStep w)).map (row, ·) = A
  generalize hB : (b.filterMap (Statement.dataStep w)).map (row, ·) = B
  let r : Nat × Step := (row, .require w.name)
  have hsection : ∀ y ∈ r :: B, Step.Independent (.advance m) y.2 := by
    intro y hy
    rcases List.mem_cons.1 hy with rfl | hy
    · exact Statement.independent_advance_require m w.name
    · exact (hpart y (hB ▸ hy)).1 m
  -- the second part requires a section last and the first part moves last, then each is done once
  calc l.Takes (r :: (A ++ (B ++ [(row, .advance (m + n))]))) l'
      ↔ l.Takes (r :: r :: (A ++ (B ++ [(row, .advance (m + n))]))) l' :=
        (takes_require_twice row row w.name w.name _).symm
    _ ↔ l.Takes (r :: (A ++ r :: (B ++ [(row, .advance (m + n))]))) l' :=
        takes_append_congr (fun _ => takes_move (fun y hy => (hpart y (hA ▸ hy)).2 _) _) [r]
    _ ↔ l.Takes (r :: (A ++ r :: (B ++ [(row, .advance m), (row, .advance n)]))) l' :=
        takes_append_congr (fun _ => takes_append_congr
          (fun _ => (takes_advance_twice row row m n []).symm) (r :: B)) (r :: A)
    _ ↔ l.Takes (r :: (A ++ (row, .advance m) :: r :: (B ++ [(row, .advance n)]))) l' :=
        takes_append_congr
          (fun k => (@takes_move k l' _ (r :: B) hsection [(row, .advance n)]).symm) (r :: A)

end SS16
