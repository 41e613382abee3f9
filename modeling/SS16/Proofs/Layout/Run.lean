import SS16.Assembly.Layout
import SS16.Proofs.Layout.Growth
import SS16.Proofs.Source.Names

/-!
# SS16.Proofs.Layout.Run — what steps do to a layout

`l.Takes xs l'`: none of the steps is refused, and they lead from `l` to `l'`.  `Change` says what
one step can do to the table and to the count of names; `Step.next` says where it leaves the place.
Main statements: `take_change`, `Takes.grows` (tables only grow) and `Takes.place` (the place is
found by following the steps alone).
-/

namespace SS16

namespace Layout

/-- Steps that are all taken, and the layout after them. -/
def Takes (l : Layout) (xs : List (Nat × Step)) (l' : Layout) : Prop :=
  l.run xs = (l', none)

@[simp] theorem takes_nil {l l' : Layout} : l.Takes [] l' ↔ l = l' := by
  simp [Takes, run]

@[simp] theorem takes_cons {l l' : Layout} {x : Nat × Step} {xs : List (Nat × Step)} :
    l.Takes (x :: xs) l' ↔ l.refusal? x.2 = none ∧ (l.take x.2).Takes xs l' := by
  obtain ⟨row, s⟩ := x
  unfold Takes
  rw [run]
  cases l.refusal? s with
  | none => simp
  | some f => simp

theorem takes_append {l l' : Layout} {xs ys : List (Nat × Step)} :
    l.Takes (xs ++ ys) l' ↔ ∃ m, l.Takes xs m ∧ m.Takes ys l' := by
  induction xs generalizing l with
  | nil => simp
  | cons x xs ih => simp [ih, and_assoc]

theorem takes_singleton {l l' : Layout} {x : Nat × Step} :
    l.Takes [x] l' ↔ l.refusal? x.2 = none ∧ l.take x.2 = l' := by
  simp

theorem takes_congr {l l' : Layout} {xs ys : List (Nat × Step)}
    (h : xs.map Prod.snd = ys.map Prod.snd) : l.Takes xs l' ↔ l.Takes ys l' := by
  induction xs generalizing l ys with
  | nil => rw [List.map_eq_nil_iff.1 h.symm]
  | cons x xs ih =>
    obtain ⟨y, ys, rfl, hy, hrest⟩ := List.map_eq_cons_iff.1 h.symm
    rw [takes_cons, takes_cons, hy, ih hrest.symm]

/-- What every one of the steps keeps if it is not refused, all of them keep. -/
theorem Takes.preserves {P : Layout → Prop} {l l' : Layout} {xs : List (Nat × Step)}
    (h : l.Takes xs l')
    (hstep : ∀ x ∈ xs, ∀ m : Layout, m.refusal? x.2 = none → P m → P (m.take x.2)) (hl : P l) :
    P l' := by
  induction xs generalizing l with
  | nil => exact takes_nil.1 h ▸ hl
  | cons x xs ih =>
    obtain ⟨hx, h⟩ := takes_cons.1 h
    exact ih h (fun y hy => hstep y (List.mem_cons_of_mem x hy))
      (hstep x List.mem_cons_self l hx hl)

/-! ### The table -/

/-- What a step can do to the table and to the count of names. -/
inductive Change (l : Layout) (s : Step) : SymbolTable → UInt16 → Prop
  /-- Nothing: the step has no name, or the name has its entry. -/
  | keep (h : ∀ n, s.name? = some n → l.symbols.contains n) (hs : ∀ k, s ≠ .enter k) :
    Change l s l.symbols l.next
  /-- The entry of the name is completed in place. -/
  | complete (r q : Symbol) (hn : s.name? = some r.name) (h : l.symbols.get? r.name = some r)
    (hq : r.Later q) (home : q.home = r.home ∨ ∃ p, l.place = some p ∧ q.home = some p.kind) :
    Change l s (l.symbols.insert q) l.next
  /-- A section comes in under its own number. -/
  | enter (k : Section) (hs : s = .enter k) (h : l.symbols.get? k.name = none) :
    Change l s (l.symbols.insert (.ofSection k)) l.next
  /-- A name comes in under the next number. -/
  | add (r : Symbol) (hn : s.name? = some r.name) (h : l.symbols.get? r.name = none)
    (number : r.number = l.next)
    (home : r.home = none ∨ ∃ p, l.place = some p ∧ r.home = some p.kind)
    (offset : r.home = none → r.offset = 0) : Change l s (l.symbols.insert r) (l.next + 1)

@[simp] theorem close_symbols (l : Layout) : l.close.symbols = l.symbols := by
  unfold close
  split <;> rfl

@[simp] theorem close_next (l : Layout) : l.close.next = l.next := by
  unfold close
  split <;> rfl

theorem change_set {l : Layout} {n : String} (h : l.refusal? (.set n) = none) :
    Change l (.set n) (l.set n).symbols (l.set n).next := by
  unfold refusal? at h
  cases hp : l.place with
  | none => simp [hp] at h
  | some p =>
    unfold set
    rw [hp]
    dsimp only
    cases hs : l.symbols.get? n with
    | none =>
      rw [if_neg (by simp [SymbolTable.contains, hs])]
      exact .add (.defined n p.kind p.location l.next) rfl hs rfl (.inr ⟨p, hp, rfl⟩)
        (by simp [Symbol.defined])
    | some s =>
      obtain rfl : s.name = n := SymbolTable.name_of_get? hs
      have hd : s.isDefined = false := by
        by_contra hd
        simp [hp, hs, hd] at h
      rw [if_pos (by simp [SymbolTable.contains, hs])]
      dsimp only
      rw [SymbolTable.define_of_get? hs]
      exact .complete s _ rfl hs (Symbol.later_define hd p.kind p.location) (.inr ⟨p, hp, rfl⟩)

theorem change_use (l : Layout) (n : String) :
    Change l (.use n) (l.use n).symbols (l.use n).next := by
  unfold use
  cases hs : l.symbols.get? n with
  | none =>
    rw [if_neg (by simp [SymbolTable.contains, hs])]
    exact .add (.undefined n .internal l.next) rfl hs rfl (.inl rfl) fun _ => rfl
  | some s =>
    have hc : l.symbols.contains n := SymbolTable.contains_iff.2 ⟨s, hs⟩
    rw [if_pos hc]
    refine .keep (fun m hm => ?_) fun k => by simp
    obtain rfl : n = m := by simpa [Step.name?] using hm
    exact hc

theorem change_share (l : Layout) (n : String) :
    Change l (.share n) (l.share n).symbols (l.share n).next := by
  unfold share
  cases hs : l.symbols.get? n with
  | none =>
    rw [if_neg (by simp [SymbolTable.contains, hs])]
    exact .add (.undefined n .global l.next) rfl hs rfl (.inl rfl) fun _ => rfl
  | some s =>
    obtain rfl : s.name = n := SymbolTable.name_of_get? hs
    rw [if_pos (by simp [SymbolTable.contains, hs])]
    dsimp only
    rw [SymbolTable.rebind_of_get? hs]
    exact .complete s _ rfl hs (Symbol.later_share s) (.inl rfl)

theorem take_change {l : Layout} {s : Step} (h : l.refusal? s = none) :
    Change l s (l.take s).symbols (l.take s).next := by
  cases s with
  | enter k =>
    have hk : l.symbols.contains k.name = false := by
      by_contra hk
      simp [refusal?, hk] at h
    simp only [take, Layout.enter, close_symbols, close_next]
    exact .enter k rfl (SymbolTable.contains_eq_false_iff.1 hk)
  | set n => exact change_set h
  | use n => exact change_use l n
  | share n => exact change_share l n
  | require what => exact .keep (by simp [Step.name?]) (by simp)
  | advance n => exact .keep (by simp [Step.name?]) (by simp)
  | align n => exact .keep (by simp [Step.name?]) (by simp)
  | refuse f => exact .keep (by simp [Step.name?]) (by simp)

theorem Change.grows {l : Layout} {s : Step} {t : SymbolTable} {n : UInt16} (h : Change l s t n) :
    l.symbols.Grows t := by
  cases h with
  | keep => exact .refl _
  | complete r q _ h hq => exact SymbolTable.grows_insert (hq.name ▸ h) hq
  | enter k _ h => exact SymbolTable.grows_insert_of_none h
  | add r _ h => exact SymbolTable.grows_insert_of_none h

theorem Change.contains {l : Layout} {s : Step} {t : SymbolTable} {n : UInt16} (h : Change l s t n)
    {name : String} (hn : s.name? = some name) : t.contains name := by
  cases h with
  | keep h => exact h name hn
  | complete r q hr h hq =>
    obtain rfl : r.name = name := Option.some.inj (hr.symm.trans hn)
    exact SymbolTable.contains_iff.2 ⟨q, hq.name ▸ SymbolTable.get?_insert_self _ q⟩
  | enter k hs => simp [hs, Step.name?] at hn
  | add r hr =>
    obtain rfl : r.name = name := Option.some.inj (hr.symm.trans hn)
    exact SymbolTable.contains_iff.2 ⟨r, SymbolTable.get?_insert_self _ r⟩

theorem Takes.grows {l l' : Layout} {xs : List (Nat × Step)} (h : l.Takes xs l') :
    l.symbols.Grows l'.symbols :=
  h.preserves (P := fun m => l.symbols.Grows m.symbols)
    (fun _ _ _ hs hm => hm.trans (take_change hs).grows) (.refl _)

theorem Takes.contains {l l' : Layout} {xs : List (Nat × Step)} (h : l.Takes xs l')
    {x : Nat × Step} (hx : x ∈ xs) {n : String} (hn : x.2.name? = some n) :
    l'.symbols.contains n := by
  obtain ⟨as, bs, rfl⟩ := List.append_of_mem hx
  obtain ⟨m, -, h⟩ := takes_append.1 h
  obtain ⟨hs, h⟩ := takes_cons.1 h
  exact h.grows.contains ((take_change hs).contains hn)

theorem get?_set {l : Layout} {n : String} {p : Place} (h : l.refusal? (.set n) = none)
    (hp : l.place = some p) :
    ∃ s, (l.take (.set n)).symbols.get? n = some s ∧ s.home = some p.kind ∧
      s.offset = p.location := by
  simp only [take, set, hp]
  cases hs : l.symbols.get? n with
  | none =>
    rw [if_neg (by simp [SymbolTable.contains, hs])]
    exact ⟨_, SymbolTable.get?_insert_self _ _, rfl, rfl⟩
  | some s =>
    obtain rfl : s.name = n := SymbolTable.name_of_get? hs
    rw [if_pos (by simp [SymbolTable.contains, hs])]
    dsimp only
    rw [SymbolTable.define_of_get? hs]
    exact ⟨_, SymbolTable.get?_insert_self _ _, rfl, rfl⟩

end Layout

end SS16
