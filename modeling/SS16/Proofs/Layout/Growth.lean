import SS16.Object.SymbolTable
import Mathlib.Tactic.ByContra

/-!
# SS16.Proofs.Layout.Growth — tables that only grow

`Later s r`: the entry `r` is what may have become of `s`.  `Grows t u`: the table `u` is `t` with
entries completed in place and new ones at its end.  Main statements: `Grows.get?` (an entry is
found again under its name), `grows_insert` and `grows_insert_of_none` (the two ways to grow).
-/

namespace SS16

namespace Symbol

/-- What may become of an entry: it keeps its name, its number and any definition it has, and it
stays global once it is. -/
structure Later (s r : Symbol) : Prop where
  name : r.name = s.name
  number : r.number = s.number
  isGlobal : s.isGlobal → r.isGlobal
  defined : s.isDefined → r.home = s.home ∧ r.offset = s.offset
  undefined : r.isDefined = false → r.offset = s.offset

@[refl] theorem Later.refl (s : Symbol) : s.Later s :=
  ⟨rfl, rfl, id, fun _ => ⟨rfl, rfl⟩, fun _ => rfl⟩

theorem isDefined_of_home {s : Symbol} {k : Section} (h : s.home = some k) : s.isDefined := by
  unfold Symbol.isDefined
  rw [h]
  rfl

theorem Later.isDefined {s r : Symbol} (h : s.Later r) (hs : s.isDefined) : r.isDefined := by
  unfold Symbol.isDefined at hs ⊢
  rw [(h.defined hs).1]
  exact hs

theorem Later.trans {s r q : Symbol} (h : s.Later r) (h' : r.Later q) : s.Later q where
  name := h'.name.trans h.name
  number := h'.number.trans h.number
  isGlobal hs := h'.isGlobal (h.isGlobal hs)
  defined hs := by
    obtain ⟨h1, h2⟩ := h.defined hs
    obtain ⟨h3, h4⟩ := h'.defined (h.isDefined hs)
    exact ⟨h3.trans h1, h4.trans h2⟩
  undefined hq := by
    have hr : r.isDefined = false := by
      by_contra hr
      have := h'.isDefined (by simpa using hr)
      simp [hq] at this
    exact (h'.undefined hq).trans (h.undefined hr)

theorem later_define {s : Symbol} (h : s.isDefined = false) (k : Section) (offset : UInt16) :
    s.Later { s with home := some k, offset := offset } where
  name := rfl
  number := rfl
  isGlobal := id
  defined hs := by simp [h] at hs
  undefined hr := by simp [Symbol.isDefined] at hr

theorem later_share (s : Symbol) : s.Later { s with binding := .global } where
  name := rfl
  number := rfl
  isGlobal _ := by simp [Symbol.isGlobal]
  defined _ := ⟨rfl, rfl⟩
  undefined _ := rfl

end Symbol

namespace SymbolTable

theorem contains_iff {t : SymbolTable} {name : String} :
    t.contains name ↔ ∃ s, t.get? name = some s := by
  rw [contains, Option.isSome_iff_exists]

theorem contains_eq_false_iff {t : SymbolTable} {name : String} :
    t.contains name = false ↔ t.get? name = none := by
  rw [contains, Option.isSome_eq_false_iff, Option.isNone_iff_eq_none]

theorem get?_of_mem {t : SymbolTable} {s : Symbol} (h : s ∈ t.toList) : t.get? s.name = some s :=
  get?_eq_some_iff.2 ⟨h, rfl⟩

theorem mem_of_get? {t : SymbolTable} {name : String} {s : Symbol} (h : t.get? name = some s) :
    s ∈ t.toList :=
  (get?_eq_some_iff.1 h).1

theorem eq_of_mem {t : SymbolTable} {s r : Symbol} (hs : s ∈ t.toList) (hr : r ∈ t.toList)
    (h : s.name = r.name) : s = r :=
  Option.some.inj ((get?_of_mem hs).symm.trans (h ▸ get?_of_mem hr))

theorem get?_insert_self (t : SymbolTable) (s : Symbol) : (t.insert s).get? s.name = some s := by
  rw [get?_insert, if_pos rfl]

theorem get?_insert_of_ne {t : SymbolTable} {s : Symbol} {name : String} (h : s.name ≠ name) :
    (t.insert s).get? name = t.get? name := by
  rw [get?_insert, if_neg h]

theorem mem_toList_iff {t : SymbolTable} {s : Symbol} : s ∈ t.toList ↔ t.get? s.name = some s :=
  ⟨get?_of_mem, mem_of_get?⟩

theorem mem_insert {t : SymbolTable} {s x : Symbol} :
    x ∈ (t.insert s).toList ↔ x = s ∨ x ∈ t.toList ∧ x.name ≠ s.name := by
  rw [mem_toList_iff, mem_toList_iff, get?_insert]
  by_cases h : s.name = x.name
  · rw [if_pos h]
    constructor
    · intro he
      exact .inl (Option.some.inj he).symm
    · rintro (rfl | ⟨-, hne⟩)
      · rfl
      · exact absurd h.symm hne
  · rw [if_neg h]
    constructor
    · intro he
      exact .inr ⟨he, Ne.symm h⟩
    · rintro (rfl | ⟨he, -⟩)
      · exact absurd rfl h
      · exact he

theorem define_of_get? {t : SymbolTable} {name : String} {s : Symbol} (h : t.get? name = some s)
    (k : Option Section) (offset : UInt16) :
    t.define name k offset = t.insert { s with home := k, offset := offset } := by
  unfold define
  rw [h]

theorem rebind_of_get? {t : SymbolTable} {name : String} {s : Symbol} (h : t.get? name = some s)
    (b : Binding) : t.rebind name b = t.insert { s with binding := b } := by
  unfold rebind
  rw [h]

/-- Every entry of one table stands at its old position in the other, as what became of it. -/
def Grows (t u : SymbolTable) : Prop :=
  ∀ (i : Nat) (s : Symbol), t.toList[i]? = some s → ∃ r, u.toList[i]? = some r ∧ s.Later r

@[refl] theorem Grows.refl (t : SymbolTable) : t.Grows t :=
  fun _ s h => ⟨s, h, .refl s⟩

theorem Grows.trans {t u v : SymbolTable} (h : t.Grows u) (h' : u.Grows v) : t.Grows v := by
  intro i s hs
  obtain ⟨r, hr, hl⟩ := h i s hs
  obtain ⟨q, hq, hl'⟩ := h' i r hr
  exact ⟨q, hq, hl.trans hl'⟩

theorem grows_insert_of_none {t : SymbolTable} {s : Symbol} (h : t.get? s.name = none) :
    t.Grows (t.insert s) := by
  intro i r hr
  refine ⟨r, ?_, .refl r⟩
  rw [toList_insert_of_none h]
  exact List.getElem?_append_left (List.getElem?_eq_some_iff.1 hr).1 ▸ hr

theorem grows_insert {t : SymbolTable} {s r : Symbol} (h : t.get? r.name = some s)
    (hl : s.Later r) : t.Grows (t.insert r) := by
  intro i x hx
  rw [toList_insert_of_some h, List.getElem?_map, hx]
  refine ⟨_, rfl, ?_⟩
  show x.Later (if x.name = r.name then r else x)
  by_cases hn : x.name = r.name
  · have hxs : x = s := eq_of_mem (List.mem_of_getElem? hx) (mem_of_get? h) (hn.trans hl.name)
    rw [if_pos hn, hxs]
    exact hl
  · rw [if_neg hn]

theorem Grows.get? {t u : SymbolTable} (h : t.Grows u) {name : String} {s : Symbol}
    (hs : t.get? name = some s) : ∃ r, u.get? name = some r ∧ s.Later r := by
  obtain ⟨i, hi⟩ := List.getElem?_of_mem (mem_of_get? hs)
  obtain ⟨r, hr, hl⟩ := h i s hi
  have hn : r.name = name := hl.name.trans (name_of_get? hs)
  exact ⟨r, get?_eq_some_iff.2 ⟨List.mem_of_getElem? hr, hn⟩, hl⟩

theorem Grows.contains {t u : SymbolTable} (h : t.Grows u) {name : String}
    (hn : t.contains name) : u.contains name := by
  obtain ⟨s, hs⟩ := contains_iff.1 hn
  obtain ⟨r, hr, -⟩ := h.get? hs
  exact contains_iff.2 ⟨r, hr⟩

end SymbolTable

end SS16
