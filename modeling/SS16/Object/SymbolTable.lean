import Std.Data.ExtTreeMap.Lemmas
import SS16.Object.Section

/-!
# SS16.Object.SymbolTable — named entries in order of declaration

A table lists its entries in the order in which their names first came in; replacing an entry keeps
its place.  An index finds entries by name, and the table carries the proof that it is right, so a
table is determined by its list of entries (`SymbolTable.ext`).  Main statements: `get?_eq_some_iff`
(look-up is membership), `nodup_names` (a name has one entry), `toList_insert_of_none` and
`toList_insert_of_some` (what an insertion does to the list), `get?_insert`.
-/

namespace SS16

/-- Whether other objects see a symbol. -/
inductive Binding
  | internal | global
  deriving DecidableEq

def Binding.name : Binding → String
  | .internal => "local"
  | .global => "global"

structure Symbol where
  name : String
  /-- The section the symbol is defined in, if it is defined. -/
  home : Option Section
  offset : UInt16
  binding : Binding
  number : UInt16
  deriving DecidableEq

namespace Symbol

def defined (name : String) (home : Section) (offset number : UInt16) : Symbol :=
  ⟨name, some home, offset, .internal, number⟩

def undefined (name : String) (binding : Binding) (number : UInt16) : Symbol :=
  ⟨name, none, 0, binding, number⟩

def ofSection (k : Section) : Symbol :=
  defined k.name k 0 k.number

def isDefined (s : Symbol) : Bool := s.home.isSome

def isGlobal (s : Symbol) : Bool := s.binding = .global

end Symbol

/-- Entries in order of declaration, at most one to a name. -/
structure SymbolTable where
  /-- Where the entry of a name stands. -/
  index : Std.ExtTreeMap String Nat
  entries : Array Symbol
  index_iff : ∀ (name : String) (i : Nat),
    index[name]? = some i ↔ ∃ s, entries[i]? = some s ∧ s.name = name

namespace SymbolTable

def empty : SymbolTable where
  index := ∅
  entries := #[]
  index_iff := by simp

def toList (t : SymbolTable) : List Symbol := t.entries.toList

def get? (t : SymbolTable) (name : String) : Option Symbol :=
  t.index[name]?.bind fun i => t.entries[i]?

def contains (t : SymbolTable) (name : String) : Bool :=
  (t.get? name).isSome

def size (t : SymbolTable) : Nat := t.entries.size

/-- Puts an entry in the place of the one with its name. -/
def replace (t : SymbolTable) (i : Nat) (s : Symbol) (h : t.index[s.name]? = some i) :
    SymbolTable where
  index := t.index
  entries := t.entries.setIfInBounds i s
  index_iff name j := by
    obtain ⟨r, hr, hn⟩ := (t.index_iff _ _).1 h
    obtain ⟨hi, rfl⟩ := Array.getElem?_eq_some_iff.1 hr
    rw [t.index_iff, Array.getElem?_setIfInBounds]
    by_cases hij : i = j
    · subst hij
      simp [hi, hn]
    · simp [hij]

/-- Puts an entry with a new name at the end. -/
def append (t : SymbolTable) (s : Symbol) (h : t.index[s.name]? = none) : SymbolTable where
  index := t.index.insert s.name t.entries.size
  entries := t.entries.push s
  index_iff name i := by
    have hlt : ∀ {j r}, t.entries[j]? = some r → j < t.entries.size := fun hr =>
      (Array.getElem?_eq_some_iff.1 hr).1
    rw [Std.ExtTreeMap.getElem?_insert, Array.getElem?_push]
    by_cases hn : s.name = name
    · subst hn
      simp only [Std.compare_self, if_true, Option.some.injEq]
      constructor
      · rintro rfl
        exact ⟨s, by simp⟩
      · rintro ⟨r, hr, hrn⟩
        by_cases hi : i = t.entries.size
        · exact hi.symm
        · rw [if_neg hi] at hr
          exact absurd ((t.index_iff _ _).2 ⟨r, hr, hrn⟩) (by simp [h])
    · have hc : ¬ compare s.name name = .eq := fun e => hn (Std.LawfulEqCmp.eq_of_compare e)
      rw [if_neg hc, t.index_iff]
      by_cases hi : i = t.entries.size
      · subst hi
        simp [hn]
      · simp [hi]

def insert (t : SymbolTable) (s : Symbol) : SymbolTable :=
  match h : t.index[s.name]? with
  | some i => t.replace i s h
  | none => t.append s h

def define (t : SymbolTable) (name : String) (home : Option Section) (offset : UInt16) :
    SymbolTable :=
  match t.get? name with
  | some s => t.insert { s with home := home, offset := offset }
  | none => t

def rebind (t : SymbolTable) (name : String) (binding : Binding) : SymbolTable :=
  match t.get? name with
  | some s => t.insert { s with binding := binding }
  | none => t

@[simp] theorem toList_empty : empty.toList = [] := rfl

theorem index_eq_none_iff {t : SymbolTable} {name : String} :
    t.index[name]? = none ↔ ∀ s ∈ t.toList, s.name ≠ name := by
  constructor
  · intro h s hs hn
    obtain ⟨i, hi⟩ := List.getElem?_of_mem hs
    have : t.index[name]? = some i := (t.index_iff _ _).2 ⟨s, by simpa [toList] using hi, hn⟩
    simp [h] at this
  · intro h
    cases hi : t.index[name]? with
    | none => rfl
    | some i =>
      obtain ⟨s, hs, hn⟩ := (t.index_iff _ _).1 hi
      exact absurd hn (h s (by simpa [toList] using Array.mem_of_getElem? hs))

/-- A look-up finds exactly the entries of the list. -/
theorem get?_eq_some_iff {t : SymbolTable} {name : String} {s : Symbol} :
    t.get? name = some s ↔ s ∈ t.toList ∧ s.name = name := by
  simp only [get?, Option.bind_eq_some_iff]
  constructor
  · rintro ⟨i, hi, hs⟩
    obtain ⟨r, hr, hn⟩ := (t.index_iff _ _).1 hi
    cases hr.symm.trans hs
    exact ⟨by simpa [toList] using Array.mem_of_getElem? hs, hn⟩
  · rintro ⟨hs, hn⟩
    obtain ⟨i, hi⟩ := List.getElem?_of_mem hs
    have hi' : t.entries[i]? = some s := by simpa [toList] using hi
    exact ⟨i, (t.index_iff _ _).2 ⟨s, hi', hn⟩, hi'⟩

theorem get?_eq_none_iff {t : SymbolTable} {name : String} :
    t.get? name = none ↔ ∀ s ∈ t.toList, s.name ≠ name := by
  rw [Option.eq_none_iff_forall_ne_some]
  simp only [ne_eq, get?_eq_some_iff, not_and]

theorem name_of_get? {t : SymbolTable} {name : String} {s : Symbol} (h : t.get? name = some s) :
    s.name = name := (get?_eq_some_iff.1 h).2

theorem nodup_names (t : SymbolTable) : (t.toList.map Symbol.name).Nodup := by
  rw [List.Nodup, List.pairwise_map, List.pairwise_iff_getElem]
  intro i j hi hj hij he
  have h1 : t.index[(t.toList[i]).name]? = some i :=
    (t.index_iff _ _).2 ⟨t.toList[i], by simp [toList], rfl⟩
  have h2 : t.index[(t.toList[i]).name]? = some j :=
    (t.index_iff _ _).2 ⟨t.toList[j], by simp [toList], he.symm⟩
  exact absurd (Option.some.inj (h1.symm.trans h2)) (Nat.ne_of_lt hij)

/-- A table is determined by its list of entries. -/
theorem ext {t u : SymbolTable} (h : t.toList = u.toList) : t = u := by
  obtain ⟨ix, es, hix⟩ := t
  obtain ⟨jx, fs, hjx⟩ := u
  obtain rfl : es = fs := Array.toList_inj.1 h
  obtain rfl : ix = jx := by
    refine Std.ExtTreeMap.ext_getElem? fun name => ?_
    refine Option.ext fun i => ?_
    rw [hix, hjx]
  rfl

instance : DecidableEq SymbolTable := fun t u =>
  decidable_of_iff (t.toList = u.toList) ⟨ext, congrArg toList⟩

theorem insert_of_none {t : SymbolTable} {s : Symbol} (h : t.index[s.name]? = none) :
    t.insert s = t.append s h := by
  unfold insert
  split
  · rename_i i hi
    simp [h] at hi
  · rfl

theorem insert_of_some {t : SymbolTable} {s : Symbol} {i : Nat} (h : t.index[s.name]? = some i) :
    t.insert s = t.replace i s h := by
  unfold insert
  split
  · rename_i j hj
    cases h.symm.trans hj
    rfl
  · rename_i hj
    simp [h] at hj

theorem toList_insert_of_none {t : SymbolTable} {s : Symbol} (h : t.get? s.name = none) :
    (t.insert s).toList = t.toList ++ [s] := by
  have hi : t.index[s.name]? = none := index_eq_none_iff.2 (get?_eq_none_iff.1 h)
  rw [insert_of_none hi]
  simp [append, toList]

/-- A known name keeps its place, and all other entries stay as they are. -/
theorem toList_insert_of_some {t : SymbolTable} {s r : Symbol} (h : t.get? s.name = some r) :
    (t.insert s).toList = t.toList.map fun x => if x.name = s.name then s else x := by
  obtain ⟨hr, hn⟩ := get?_eq_some_iff.1 h
  obtain ⟨i, hi⟩ := List.getElem?_of_mem hr
  have hix : t.index[s.name]? = some i := (t.index_iff _ _).2 ⟨r, by simpa [toList] using hi, hn⟩
  rw [insert_of_some hix]
  apply List.ext_getElem?
  intro j
  simp only [replace, toList, Array.getElem?_toList, Array.getElem?_setIfInBounds,
    List.getElem?_map]
  by_cases hij : i = j
  · subst hij
    obtain ⟨hlt, rfl⟩ : ∃ hlt : i < t.entries.size, t.entries[i] = r :=
      Array.getElem?_eq_some_iff.1 (by simpa [toList] using hi)
    simp [hlt, hn]
  · rw [if_neg hij]
    cases hj : t.entries[j]? with
    | none => rfl
    | some x =>
      have hx : x.name ≠ s.name := by
        intro hx
        have : t.index[s.name]? = some j := (t.index_iff _ _).2 ⟨x, hj, hx⟩
        exact hij (Option.some.inj (hix.symm.trans this))
      simp [hx]

theorem get?_insert (t : SymbolTable) (s : Symbol) (name : String) :
    (t.insert s).get? name = if s.name = name then some s else t.get? name := by
  cases h : t.get? s.name with
  | none =>
    by_cases hn : s.name = name
    · rw [if_pos hn, get?_eq_some_iff, toList_insert_of_none h]
      simp [hn]
    · rw [if_neg hn]
      refine Option.ext fun x => ?_
      rw [get?_eq_some_iff, get?_eq_some_iff, toList_insert_of_none h, List.mem_append,
        List.mem_singleton]
      constructor
      · rintro ⟨hx | rfl, hxn⟩
        · exact ⟨hx, hxn⟩
        · exact absurd hxn hn
      · rintro ⟨hx, hxn⟩
        exact ⟨.inl hx, hxn⟩
  | some r =>
    obtain ⟨hr, hrn⟩ := get?_eq_some_iff.1 h
    by_cases hn : s.name = name
    · rw [if_pos hn, get?_eq_some_iff, toList_insert_of_some h, List.mem_map]
      exact ⟨⟨r, hr, by simp [hrn]⟩, hn⟩
    · rw [if_neg hn]
      refine Option.ext fun x => ?_
      rw [get?_eq_some_iff, get?_eq_some_iff, toList_insert_of_some h, List.mem_map]
      constructor
      · rintro ⟨⟨y, hy, he⟩, hxn⟩
        by_cases hys : y.name = s.name
        · rw [if_pos hys] at he
          exact absurd (he ▸ hxn) hn
        · rw [if_neg hys] at he
          exact ⟨he ▸ hy, hxn⟩
      · rintro ⟨hx, hxn⟩
        exact ⟨⟨x, hx, if_neg fun e => hn (e.symm.trans hxn)⟩, hxn⟩

end SymbolTable

end SS16
