import SS16.Proofs.Emission.Renumbering
import SS16.Proofs.Layout.Reordering

/-!
# SS16.Proofs.Emission.Entries — the same entries under other numbers

In another order of the lines names may get other entry numbers, but the values of references stay and
the entries that they wait for have the same names.  Main statements: `SymbolTable.Agree.renumbers`
and `Layout.Takes.reordered`.
-/

namespace SS16

namespace SymbolTable

def namesOf (t : SymbolTable) (number : UInt16) : List String :=
  (t.toList.filter fun s => s.number = number).map Symbol.name

/-- Numbers that belong to one entry each, of the same name in both tables. -/
def SameEntry (t u : SymbolTable) (x y : UInt16) : Prop :=
  ∃ n, t.namesOf x = [n] ∧ u.namesOf y = [n]

theorem target_cases {t : SymbolTable} {n : String} {x : Target} (h : t.target n = .ok x) :
    ∃ s, t.get? n = some s ∧ (s.isGlobal ∧ x = ⟨0, s.number⟩ ∨
      s.isGlobal = false ∧ ∃ k, s.home = some k ∧ x = ⟨s.offset, k.number⟩) := by
  unfold target at h
  cases hs : t.get? n with
  | none =>
    rw [hs] at h
    cases h
  | some s =>
    rw [hs] at h
    dsimp only at h
    refine ⟨s, rfl, ?_⟩
    split_ifs at h with hg
    · cases h
      exact .inl ⟨hg, rfl⟩
    · cases hk : s.home with
      | none =>
        rw [hk] at h
        cases h
      | some k =>
        rw [hk] at h
        cases h
        exact .inr ⟨by simpa using hg, k, rfl, rfl⟩

theorem target_of_isGlobal {t : SymbolTable} {n : String} {s : Symbol} (h : t.get? n = some s)
    (hg : s.isGlobal) : t.target n = .ok ⟨0, s.number⟩ := by
  unfold target
  rw [h]
  exact if_pos hg

theorem target_of_home {t : SymbolTable} {n : String} {s : Symbol} {k : Section}
    (h : t.get? n = some s) (hg : s.isGlobal = false) (hk : s.home = some k) :
    t.target n = .ok ⟨s.offset, k.number⟩ := by
  unfold target
  rw [h]
  dsimp only
  rw [if_neg (by simp [hg]), hk]

end SymbolTable

/-- Up to the name with number 65535, a number tells the name of its entry. -/
theorem Layout.Numbered.namesOf_eq {l : Layout} (h : l.Numbered) (hw : l.WellFormed)
    (hlen : l.symbols.users.length ≤ 65531) {s : Symbol} (hs : s ∈ l.symbols.toList) :
    l.symbols.namesOf s.number = [s.name] := by
  have hnd : l.symbols.toList.Nodup := List.Nodup.of_map _ l.symbols.nodup_names
  have hfilter : l.symbols.toList.filter (fun r => r.number = s.number) =
      l.symbols.toList.filter (· == s) := by
    refine List.filter_congr fun r hr => ?_
    rw [Bool.eq_iff_iff, decide_eq_true_iff, beq_iff_eq]
    exact ⟨fun he => h.eq_of_number hw hlen hr hs he, fun he => he ▸ rfl⟩
  unfold SymbolTable.namesOf
  rw [hfilter, List.filter_beq, List.count_eq_one_of_mem hnd hs]
  rfl

/-- Tables that agree about names have targets of the same values, and the entries that these wait
for have the same names, as long as numbers tell entries apart. -/
theorem SymbolTable.Agree.renumbers {l l' : Layout} (h : l.symbols.Agree l'.symbols)
    (hw : l.WellFormed) (hw' : l'.WellFormed) (hnum : l.Numbered) (hnum' : l'.Numbered)
    (hlen : l.symbols.users.length = l'.symbols.users.length) :
    l.symbols.Renumbers (fun x y => l.symbols.users.length ≤ 65531 →
      l.symbols.SameEntry l'.symbols x y) l'.symbols := by
  intro n x hx
  obtain ⟨s, hs, hcases⟩ := target_cases hx
  obtain ⟨r, hr, hmeaning⟩ : ∃ r, l'.symbols.get? n = some r ∧ r.meaning = s.meaning := by
    have hn := h n
    rw [hs] at hn
    exact Option.map_eq_some_iff.1 hn.symm
  unfold Symbol.meaning at hmeaning
  rw [Prod.mk.injEq, Prod.mk.injEq] at hmeaning
  obtain ⟨hhome, hoffset, hbinding⟩ := hmeaning
  have hglobal : r.isGlobal = s.isGlobal := by
    unfold Symbol.isGlobal
    rw [hbinding]
  rcases hcases with ⟨hg, rfl⟩ | ⟨hg, k, hk, rfl⟩
  · refine ⟨_, target_of_isGlobal hr (hglobal.trans hg), rfl, fun hle => ⟨n, ?_, ?_⟩⟩
    · rw [hnum.namesOf_eq hw hle (mem_of_get? hs), name_of_get? hs]
    · rw [hnum'.namesOf_eq hw' (hlen ▸ hle) (mem_of_get? hr), name_of_get? hr]
  · have hk' := hhome.trans hk
    refine ⟨_, target_of_home hr (hglobal.trans hg) hk', hoffset, fun hle => ⟨k.name, ?_, ?_⟩⟩
    · have hsection := hw.get? k (hw.home s (mem_of_get? hs) k hk)
      exact hnum.namesOf_eq hw hle (mem_of_get? hsection)
    · have hsection := hw'.get? k (hw'.home r (mem_of_get? hr) k hk')
      exact hnum'.namesOf_eq hw' (hlen ▸ hle) (mem_of_get? hsection)

/-- If lines are laid out, so are they in another order of the same places, with the same symbols under
other entry numbers. -/
theorem Layout.Takes.reordered {lines lines' : List Line} {l : Layout}
    (ht : (start .empty).Takes (lines.flatMap Line.located) l)
    (hlabels : ∀ line ∈ lines, ∀ n ∈ line.labels, Identifier.isValid n)
    (hr : Line.Reordered lines lines') (hu : unresolved? l.symbols = none) :
    ∃ l', (start .empty).Takes (lines'.flatMap Line.located) l' ∧ unresolved? l'.symbols = none ∧
      l.symbols.Agree l'.symbols ∧
      l.symbols.Renumbers (fun x y => l.symbols.users.length ≤ 65531 →
        l.symbols.SameEntry l'.symbols x y) l'.symbols := by
  have hlabels' := hr.valid hlabels
  obtain ⟨l', ht'⟩ := (exists_takes_lines_iff hlabels').2 ((ht.accepted hlabels).reordered hr)
  have hagree := ht.agree ht' hlabels hr
  have hvalid := isValid_of_mem_located hlabels
  have hvalid' := isValid_of_mem_located hlabels'
  exact ⟨l', ht', ht.unresolved?_reordered ht' hlabels hr hu, hagree,
    hagree.renumbers (wellFormed_start.takes ht hvalid) (wellFormed_start.takes ht' hvalid')
      (numbered_start.takes ht hvalid) (numbered_start.takes ht' hvalid')
      (ht.length_users ht' hlabels hr)⟩

end SS16
