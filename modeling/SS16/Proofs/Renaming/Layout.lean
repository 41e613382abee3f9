import SS16.Proofs.Layout.Growth
import SS16.Proofs.Renaming.Steps

/-!
# SS16.Proofs.Renaming.Layout — other names in a layout

Two layouts that differ in names alone keep doing so: each step is refused on both sides or changes
both tables alike, since different names stay different and no name becomes that of a section.  Main
statements: `Renaming.Layouts.run` and `Renaming.layout_program`.
-/

namespace SS16

namespace Renaming

variable (ρ : Renaming)

def symbol (s : Symbol) : Symbol := { s with name := ρ.ident s.name }

/-- The same entries in the same order, with other names. -/
def Tables (t u : SymbolTable) : Prop := u.toList = t.toList.map ρ.symbol

/-- The same layout but for the names in its table. -/
structure Layouts (l m : Layout) : Prop where
  symbols : ρ.Tables l.symbols m.symbols
  closed : m.closed = l.closed
  place : m.place = l.place
  next : m.next = l.next

variable {ρ}

/-! ### Tables -/

namespace Tables

variable {t u : SymbolTable}

theorem empty : ρ.Tables .empty .empty := rfl

theorem get? (h : ρ.Tables t u) (n : String) : u.get? (ρ.ident n) = (t.get? n).map ρ.symbol := by
  refine Option.ext fun x => ?_
  rw [SymbolTable.get?_eq_some_iff, h, List.mem_map, Option.map_eq_some_iff]
  constructor
  · rintro ⟨⟨s, hs, rfl⟩, hn⟩
    exact ⟨s, SymbolTable.get?_eq_some_iff.2 ⟨hs, ρ.ident_injective hn⟩, rfl⟩
  · rintro ⟨s, hs, rfl⟩
    obtain ⟨hmem, hn⟩ := SymbolTable.get?_eq_some_iff.1 hs
    exact ⟨⟨s, hmem, rfl⟩, congrArg ρ.ident hn⟩

theorem contains (h : ρ.Tables t u) (n : String) :
    u.contains (ρ.ident n) = t.contains n := by
  unfold SymbolTable.contains
  rw [h.get?, Option.isSome_map]

theorem contains_section (h : ρ.Tables t u) (k : Section) :
    u.contains k.name = t.contains k.name := by
  rw [← h.contains, ρ.ident_of_not_isValid (Section.isValid_name k)]

theorem insert (h : ρ.Tables t u) (s : Symbol) : ρ.Tables (t.insert s) (u.insert (ρ.symbol s)) := by
  have hget : u.get? (ρ.symbol s).name = (t.get? s.name).map ρ.symbol := h.get? s.name
  unfold Tables at h ⊢
  cases hs : t.get? s.name with
  | none =>
    rw [hs] at hget
    rw [SymbolTable.toList_insert_of_none hget, SymbolTable.toList_insert_of_none hs, h,
      List.map_append]
    rfl
  | some r =>
    rw [hs] at hget
    rw [SymbolTable.toList_insert_of_some hget, SymbolTable.toList_insert_of_some hs, h,
      List.map_map, List.map_map]
    refine List.map_congr_left fun x _ => ?_
    -- The entry to be replaced is found by its name, and no two names become one.
    show (if ρ.ident x.name = ρ.ident s.name then ρ.symbol s else ρ.symbol x) =
      ρ.symbol (if x.name = s.name then s else x)
    by_cases hx : x.name = s.name
    · rw [if_pos hx, if_pos (congrArg ρ.ident hx)]
    · rw [if_neg hx, if_neg fun he => hx (ρ.ident_injective he)]

theorem insert_section (h : ρ.Tables t u) (k : Section) :
    ρ.Tables (t.insert (.ofSection k)) (u.insert (.ofSection k)) := by
  have hk : ρ.symbol (.ofSection k) = .ofSection k := by
    show ({ Symbol.ofSection k with name := ρ.ident k.name } : Symbol) = _
    rw [ρ.ident_of_not_isValid (Section.isValid_name k)]
    rfl
  have hinsert := h.insert (.ofSection k)
  rwa [hk] at hinsert

theorem define (h : ρ.Tables t u) (n : String) (home : Option Section) (offset : UInt16) :
    ρ.Tables (t.define n home offset) (u.define (ρ.ident n) home offset) := by
  unfold SymbolTable.define
  rw [h.get?]
  cases t.get? n with
  | none => exact h
  | some s => exact h.insert { s with home := home, offset := offset }

theorem rebind (h : ρ.Tables t u) (n : String) (binding : Binding) :
    ρ.Tables (t.rebind n binding) (u.rebind (ρ.ident n) binding) := by
  unfold SymbolTable.rebind
  rw [h.get?]
  cases t.get? n with
  | none => exact h
  | some s => exact h.insert { s with binding := binding }

end Tables

/-! ### Steps -/

namespace Layouts

variable {l m : Layout}

theorem close (h : ρ.Layouts l m) : ρ.Layouts l.close m.close := by
  unfold Layout.close
  rw [h.place]
  cases l.place with
  | none => exact h
  | some p => exact ⟨h.symbols, by rw [h.closed], rfl, h.next⟩

theorem move (h : ρ.Layouts l m) (f : Place → Option Place) : ρ.Layouts (l.move f) (m.move f) :=
  ⟨h.symbols, h.closed, congrArg (Option.map _) h.place, h.next⟩

theorem moveRefusal? (h : ρ.Layouts l m) (f : Place → Option Place) :
    m.moveRefusal? f = (l.moveRefusal? f).map ρ.fault := by
  unfold Layout.moveRefusal?
  rw [h.place]
  cases l.place with
  | none => rfl
  | some p =>
    dsimp only [Option.bind]
    split_ifs <;> rfl

theorem refusal? (h : ρ.Layouts l m) (s : Step) :
    m.refusal? (ρ.step s) = (l.refusal? s).map ρ.fault := by
  cases s with
  | require what =>
    show (if m.place.isSome then none else some (.outsideSection (ρ.labelWord what))) =
      (if l.place.isSome then none else some (.outsideSection what)).map ρ.fault
    rw [h.place]
    split_ifs <;> rfl
  | enter k =>
    show (if m.symbols.contains k.name then some (.duplicateSection k) else none) =
      (if l.symbols.contains k.name then some (.duplicateSection k) else none).map ρ.fault
    rw [h.symbols.contains_section]
    split_ifs <;> rfl
  | set n =>
    show (if m.place.isNone then some (.outsideSection (ρ.ident n ++ ":"))
      else if (m.symbols.get? (ρ.ident n)).any Symbol.isDefined then
        some (.duplicateSymbol (ρ.ident n)) else none) =
      (if l.place.isNone then some (.outsideSection (n ++ ":"))
        else if (l.symbols.get? n).any Symbol.isDefined then some (.duplicateSymbol n)
        else none).map ρ.fault
    have hdefined : (m.symbols.get? (ρ.ident n)).any Symbol.isDefined =
        (l.symbols.get? n).any Symbol.isDefined := by
      rw [h.symbols.get?, Option.any_map]
      rfl
    rw [h.place, hdefined, ← ρ.labelWord_append]
    split_ifs <;> rfl
  | use n => rfl
  | share n => rfl
  | advance n => exact h.moveRefusal? _
  | align n => exact h.moveRefusal? _
  | refuse f => rfl

theorem declare (h : ρ.Layouts l m) {s r : UInt16 → Symbol} (hs : ∀ i, r i = ρ.symbol (s i)) :
    ρ.Layouts (l.declare s) (m.declare r) := by
  unfold Layout.declare
  rw [hs, h.next]
  exact ⟨h.symbols.insert (s l.next), h.closed, h.place, rfl⟩

theorem enter (h : ρ.Layouts l m) (k : Section) : ρ.Layouts (l.enter k) (m.enter k) :=
  ⟨h.close.symbols.insert_section k, h.close.closed, rfl, h.close.next⟩

theorem set (h : ρ.Layouts l m) (n : String) : ρ.Layouts (l.set n) (m.set (ρ.ident n)) := by
  unfold Layout.set
  rw [h.place, h.symbols.contains]
  cases l.place with
  | none => exact h
  | some p =>
    dsimp only
    split_ifs
    · exact ⟨h.symbols.define n _ _, h.closed, rfl, h.next⟩
    · exact h.declare fun _ => rfl

theorem use (h : ρ.Layouts l m) (n : String) : ρ.Layouts (l.use n) (m.use (ρ.ident n)) := by
  unfold Layout.use
  rw [h.symbols.contains]
  split_ifs
  · exact h
  · exact h.declare fun _ => rfl

theorem share (h : ρ.Layouts l m) (n : String) : ρ.Layouts (l.share n) (m.share (ρ.ident n)) := by
  unfold Layout.share
  rw [h.symbols.contains]
  split_ifs
  · exact ⟨h.symbols.rebind n _, h.closed, h.place, h.next⟩
  · exact h.declare fun _ => rfl

theorem take (h : ρ.Layouts l m) (s : Step) : ρ.Layouts (l.take s) (m.take (ρ.step s)) := by
  cases s with
  | require what => exact h
  | enter k => exact h.enter k
  | set n => exact h.set n
  | use n => exact h.use n
  | share n => exact h.share n
  | advance n => exact h.move _
  | align n => exact h.move _
  | refuse f => exact h

/-- A run of steps stops in the same row with the same kind of fault, or not at all. -/
theorem run (h : ρ.Layouts l m) (xs : List (Nat × Step)) :
    ρ.Layouts (l.run xs).1 (m.run (xs.map fun x => (x.1, ρ.step x.2))).1 ∧
      (m.run (xs.map fun x => (x.1, ρ.step x.2))).2 = (l.run xs).2.map ρ.located := by
  induction xs generalizing l m with
  | nil => exact ⟨h, rfl⟩
  | cons x xs ih =>
    obtain ⟨row, s⟩ := x
    rw [List.map_cons, Layout.run, Layout.run, h.refusal?]
    cases l.refusal? s with
    | some f => exact ⟨h, rfl⟩
    | none => exact ih (h.take s)

end Layouts

/-! ### The end of a sweep -/

variable {t u : SymbolTable}

theorem Tables.unresolved? (h : ρ.Tables t u) :
    Layout.unresolved? u = (Layout.unresolved? t).map ρ.symbol := by
  unfold Layout.unresolved?
  rw [h, List.find?_map]
  rfl

theorem firstUse_map (xs : List (Nat × Step)) (n : String) :
    Layout.firstUse (xs.map fun x => (x.1, ρ.step x.2)) (ρ.ident n) = Layout.firstUse xs n := by
  have huse : (fun x : Nat × Step => decide (x.2 = .use (ρ.ident n))) ∘
      (fun x : Nat × Step => (x.1, ρ.step x.2)) = fun x => decide (x.2 = .use n) := by
    funext x
    exact decide_eq_decide.2 ρ.step_eq_use_iff
  unfold Layout.firstUse
  rw [List.find?_map, huse, Option.map_map]
  rfl

theorem Tables.unresolvedFault (h : ρ.Tables t u) (xs : List (Nat × Step)) (s : Symbol) :
    Layout.unresolvedFault u (xs.map fun x => (x.1, ρ.step x.2)) (ρ.symbol s) =
      ρ.located (Layout.unresolvedFault t xs s) := by
  show (⟨if u.contains (ρ.ident s.name) then none else
    Layout.firstUse (xs.map fun x => (x.1, ρ.step x.2)) (ρ.ident s.name), _⟩ : Located) = _
  rw [h.contains, firstUse_map]
  rfl

/-- The first sweep over a program gives the same sections and the same table but for names, or the
same kind of fault in the same row. -/
theorem layout_program {p : Program} (hp : ∀ x ∈ p.fault, ρ.fault x.2 = x.2)
    (h : ρ.Tables t u) :
    ρ.Tables (p.layout t).symbols ((ρ.program p).layout u).symbols ∧
      ((ρ.program p).layout u).sections = (p.layout t).sections.mapError ρ.located := by
  have hstart : ρ.Layouts (.start t) (.start u) := ⟨h, rfl, rfl, rfl⟩
  obtain ⟨hlayouts, hfault⟩ := hstart.run p.steps
  unfold Program.layout
  dsimp only
  rw [ρ.program_steps hp]
  generalize (Layout.start t).run p.steps = x at hlayouts hfault ⊢
  generalize (Layout.start u).run _ = y at hlayouts hfault ⊢
  obtain ⟨l, f⟩ := x
  obtain ⟨m, g⟩ := y
  obtain rfl : g = f.map ρ.located := hfault
  cases f with
  | some f => exact ⟨hlayouts.symbols, rfl⟩
  | none =>
    dsimp only [Option.map]
    rw [hlayouts.symbols.unresolved?]
    cases Layout.unresolved? l.symbols with
    | some s => exact ⟨hlayouts.symbols, congrArg Except.error (h.unresolvedFault p.steps s)⟩
    | none =>
      refine ⟨hlayouts.symbols, ?_⟩
      show Except.ok m.close.closed.toList = Except.ok l.close.closed.toList
      rw [hlayouts.close.closed]

end Renaming

end SS16
