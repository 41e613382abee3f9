import SS16.Object.Section

/-!
# SS16.Object.BySection — sequences kept apart by section

Each section that has come up holds a sequence that only grows at its end.  Sections are listed in
the order in which they came up, each once, so sequences are determined by that order and by what
each section holds (`BySection.eq_of_get`).  Main statements: `BySection.keys_append`,
`BySection.get_append` and `BySection.toList_eq`.
-/

namespace SS16

/-- Sequences by section, in the order in which the sections came up. -/
structure BySection (α : Type) where
  groups : List (Section × Array α)
  nodup : (groups.map Prod.fst).Nodup
  deriving DecidableEq

namespace BySection

variable {α : Type} {m n : BySection α}

def empty : BySection α := ⟨[], .nil⟩

def ofSections (ks : List Section) (h : ks.Nodup) : BySection α where
  groups := ks.map fun k => (k, #[])
  nodup := by simpa [Function.comp_def] using h

/-- Adds elements to the group of a section, or makes a new group at the end. -/
def extend (k : Section) (xs : List α) : List (Section × Array α) → List (Section × Array α)
  | [] => [(k, xs.toArray)]
  | (l, ys) :: gs => if l = k then (l, ys.appendList xs) :: gs else (l, ys) :: extend k xs gs

theorem map_fst_extend (k : Section) (xs : List α) (gs : List (Section × Array α)) :
    (extend k xs gs).map Prod.fst =
      if k ∈ gs.map Prod.fst then gs.map Prod.fst else gs.map Prod.fst ++ [k] := by
  induction gs with
  | nil => rfl
  | cons g gs ih =>
    obtain ⟨l, ys⟩ := g
    unfold extend
    by_cases hl : l = k
    · simp [hl]
    · rw [if_neg hl, List.map_cons, List.map_cons, ih]
      by_cases hk : k ∈ gs.map Prod.fst
      · rw [if_pos hk, if_pos (List.mem_cons_of_mem _ hk)]
      · rw [if_neg hk, if_neg fun h => (List.mem_cons.1 h).elim (fun he => hl he.symm) hk,
          List.cons_append]

/-- Adds elements at the end of a section, which comes up even if there are none. -/
def append (m : BySection α) (k : Section) (xs : List α) : BySection α where
  groups := extend k xs m.groups
  nodup := by
    rw [map_fst_extend]
    split
    · exact m.nodup
    · next hk =>
      refine List.nodup_append.2 ⟨m.nodup, by simp, fun l hl j hj he => hk ?_⟩
      rwa [← List.mem_singleton.1 hj, ← he]

def get (m : BySection α) (k : Section) : List α :=
  match m.groups.lookup k with
  | some xs => xs.toList
  | none => []

def keys (m : BySection α) : List Section := m.groups.map Prod.fst

def toList (m : BySection α) : List (Section × List α) :=
  m.groups.map fun g => (g.1, g.2.toList)

def size (m : BySection α) : Nat :=
  m.groups.foldl (fun n g => n + g.2.size) 0

/-- A section comes up once, when something is first added to it. -/
theorem keys_append (m : BySection α) (k : Section) (xs : List α) :
    (m.append k xs).keys = if k ∈ m.keys then m.keys else m.keys ++ [k] :=
  map_fst_extend k xs m.groups

theorem mem_keys_append (m : BySection α) (k : Section) (xs : List α) :
    k ∈ (m.append k xs).keys := by
  rw [keys_append]
  split
  · assumption
  · exact List.mem_append_right _ List.mem_cons_self

theorem get_append (m : BySection α) (k l : Section) (xs : List α) :
    (m.append k xs).get l = if k = l then m.get l ++ xs else m.get l := by
  simp only [append, get]
  generalize m.groups = gs
  induction gs with
  | nil =>
    by_cases h : k = l
    · simp [extend, h]
    · have h' : (l == k) = false := by simpa using Ne.symm h
      simp [extend, List.lookup_cons, h, h']
  | cons g gs ih =>
    obtain ⟨i, ys⟩ := g
    by_cases hi : i = k
    · subst hi
      by_cases h : i = l
      · simp [extend, h]
      · have h' : (l == i) = false := by simpa using Ne.symm h
        simp [extend, List.lookup_cons, h, h']
    · by_cases h : l = i
      · subst h
        simp [extend, hi, Ne.symm hi]
      · have h' : (l == i) = false := by simpa using h
        simpa [extend, hi, List.lookup_cons, h'] using ih

theorem get_of_not_mem_keys {k : Section} (h : k ∉ m.keys) : m.get k = [] := by
  have hnone : m.groups.lookup k = none := by
    rw [List.lookup_eq_none_iff]
    intro g hg
    have hne : k ≠ g.1 := fun he => h (List.mem_map.2 ⟨g, hg, he.symm⟩)
    simpa using hne
  unfold get
  rw [hnone]

theorem get_of_mem {g : Section × Array α} (h : g ∈ m.groups) : m.get g.1 = g.2.toList := by
  obtain ⟨before, behind, hsplit⟩ := List.append_of_mem h
  have hnd := m.nodup
  rw [hsplit, List.map_append, List.map_cons, List.nodup_append] at hnd
  have hfound : m.groups.lookup g.1 = some g.2 := by
    refine List.lookup_eq_some_iff.2 ⟨before, behind, hsplit, fun p hp => ?_⟩
    simpa using (hnd.2.2 p.1 (List.mem_map_of_mem hp) g.1 List.mem_cons_self).symm
  unfold get
  rw [hfound]

theorem toList_eq (m : BySection α) : m.toList = m.keys.map fun k => (k, m.get k) := by
  unfold toList keys
  rw [List.map_map]
  exact List.map_congr_left fun g hg => congrArg _ (get_of_mem hg).symm

theorem toList_inj : m.toList = n.toList ↔ m = n := by
  refine ⟨fun h => ?_, congrArg _⟩
  obtain ⟨gs, hgs⟩ := m
  obtain ⟨hs, hhs⟩ := n
  have hinj : Function.Injective fun g : Section × Array α => (g.1, g.2.toList) := by
    rintro ⟨k, xs⟩ ⟨l, ys⟩ he
    simp only [Prod.mk.injEq] at he
    rw [he.1, Array.toList_inj.1 he.2]
  obtain rfl : gs = hs := List.map_inj_right (fun _ _ => @hinj _ _) |>.1 h
  rfl

/-- Sequences are told by the sections that came up and by what each of them holds. -/
theorem eq_of_get (hkeys : m.keys = n.keys) (h : ∀ k, m.get k = n.get k) : m = n := by
  rw [← toList_inj, toList_eq, toList_eq, hkeys, funext h]

end BySection

end SS16
