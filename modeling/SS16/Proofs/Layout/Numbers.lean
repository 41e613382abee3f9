import SS16.Proofs.Layout.Places
import Mathlib.Data.Finset.Card
import Mathlib.Data.List.Nodup

/-!
# SS16.Proofs.Layout.Numbers — the entry numbers of names

Names are numbered in the order in which they come up, from 5 on and modulo 2 ^ 16; sections have
numbers of their own.  So numbers tell entries apart up to the name with number 65535.  Main
statements: `Numbered.takes`, `Numbered.nodup_iff` and `Takes.card_names` (how many names there are).
-/

namespace SS16

/-- The entries that belong to names, in order. -/
def SymbolTable.users (t : SymbolTable) : List Symbol :=
  t.toList.filter fun s => Identifier.isValid s.name

namespace SymbolTable

theorem mem_users {t : SymbolTable} {s : Symbol} :
    s ∈ t.users ↔ s ∈ t.toList ∧ Identifier.isValid s.name := by
  rw [users, List.mem_filter]

theorem users_insert_of_none {t : SymbolTable} {s : Symbol} (h : t.get? s.name = none) :
    (t.insert s).users = t.users ++ if Identifier.isValid s.name then [s] else [] := by
  unfold users
  rw [toList_insert_of_none h, List.filter_append, List.filter_singleton]
  cases Identifier.isValid s.name <;> rfl

theorem map_users_insert {t : SymbolTable} {s r : Symbol} (h : t.get? r.name = some s)
    (hl : s.Later r) :
    (t.insert r).users.map (fun x => (x.name, x.number)) =
      t.users.map fun x => (x.name, x.number) := by
  have hkept : ∀ x ∈ t.toList, ((if x.name = r.name then r else x : Symbol).name,
      (if x.name = r.name then r else x : Symbol).number) = (x.name, x.number) := by
    intro x hx
    by_cases hn : x.name = r.name
    · have hxs : x = s := eq_of_mem hx (mem_of_get? h) (hn.trans hl.name)
      rw [if_pos hn, hxs, hl.name, hl.number]
    · rw [if_neg hn]
  unfold users
  rw [toList_insert_of_some h]
  generalize t.toList = xs at hkept
  induction xs with
  | nil => rfl
  | cons x xs ih =>
    have hx := hkept x List.mem_cons_self
    have ih := ih fun y hy => hkept y (List.mem_cons_of_mem x hy)
    rw [List.map_cons, List.filter_cons, List.filter_cons]
    rw [Prod.mk.injEq] at hx
    rw [hx.1]
    split
    · rw [List.map_cons, List.map_cons, ih, hx.1, hx.2]
    · exact ih

end SymbolTable

namespace Layout

/-- The entry number of the name that comes up after `i` others. -/
def numberAt (i : Nat) : UInt16 := firstNumber + UInt16.ofNat i

theorem numberAt_succ (i : Nat) : numberAt (i + 1) = numberAt i + 1 := by
  unfold numberAt
  rw [UInt16.ofNat_add, ← UInt16.add_assoc]
  rfl

theorem toNat_numberAt {i : Nat} (h : i ≤ 65530) : (numberAt i).toNat = 5 + i := by
  unfold numberAt firstNumber
  rw [UInt16.toNat_add, UInt16.toNat_ofNat']
  show (5 + i % 65536) % 65536 = 5 + i
  omega

/-- Names have the numbers from 5 on, and the next name goes on from there. -/
structure Numbered (l : Layout) : Prop where
  numbers : l.symbols.users.map Symbol.number = (List.range l.symbols.users.length).map numberAt
  next : l.next = numberAt l.symbols.users.length

theorem numbered_start : (start .empty).Numbered := ⟨rfl, rfl⟩

theorem Numbered.take {l : Layout} {s : Step} (h : l.Numbered) (hs : l.refusal? s = none)
    (hn : ∀ n, s.name? = some n → Identifier.isValid n) : (l.take s).Numbered := by
  have hchange := take_change hs
  generalize l.take s = m at hchange ⊢
  generalize ht : m.symbols = t at hchange
  generalize hc : m.next = count at hchange
  cases hchange with
  | keep => exact ⟨ht ▸ h.numbers, hc.trans (ht ▸ h.next)⟩
  | complete r q _ hr hl =>
    have hmap := SymbolTable.map_users_insert (hl.name ▸ hr) hl
    have hlen : (l.symbols.insert q).users.length = l.symbols.users.length := by
      simpa using congrArg List.length hmap
    have hnum : (l.symbols.insert q).users.map Symbol.number =
        l.symbols.users.map Symbol.number := by
      simpa [Function.comp_def] using congrArg (List.map Prod.snd) hmap
    refine ⟨?_, ?_⟩
    · rw [ht, hnum, hlen]
      exact h.numbers
    · rw [hc, ht, hlen]
      exact h.next
  | enter k _ hr =>
    have husers : (l.symbols.insert (.ofSection k)).users = l.symbols.users := by
      rw [SymbolTable.users_insert_of_none hr, if_neg, List.append_nil]
      show ¬ Identifier.isValid k.name
      rw [Section.isValid_name]
      exact Bool.false_ne_true
    refine ⟨?_, ?_⟩
    · rw [ht, husers]
      exact h.numbers
    · rw [hc, ht, husers]
      exact h.next
  | add r hsn hr number =>
    have husers : (l.symbols.insert r).users = l.symbols.users ++ [r] := by
      rw [SymbolTable.users_insert_of_none hr, if_pos (hn _ hsn)]
    refine ⟨?_, ?_⟩
    · rw [ht, husers, List.map_append, h.numbers, List.length_append, List.length_singleton,
        List.range_succ, List.map_append, List.map_singleton, List.map_singleton, number, h.next]
    · rw [hc, ht, husers, h.next, List.length_append, List.length_singleton, numberAt_succ]

theorem Numbered.takes {l l' : Layout} {xs : List (Nat × Step)} (h : l.Numbered)
    (hx : l.Takes xs l') (hn : ∀ x ∈ xs, ∀ n, x.2.name? = some n → Identifier.isValid n) :
    l'.Numbered :=
  hx.preserves (fun x hmem _ hs hm => hm.take hs (hn x hmem)) h

theorem Numbered.number_getElem {l : Layout} (h : l.Numbered) {i : Nat}
    (hi : i < l.symbols.users.length) : (l.symbols.users[i]).number = numberAt i := by
  have := congrArg (·[i]?) h.numbers
  simpa [hi] using this

theorem Numbered.five_le_iff {l : Layout} (h : l.Numbered) :
    (∀ s ∈ l.symbols.users, 5 ≤ s.number) ↔ l.symbols.users.length ≤ 65531 := by
  constructor
  · intro hall
    by_contra hlen
    have hi : 65531 < l.symbols.users.length := by omega
    have := hall _ (List.getElem_mem hi)
    rw [h.number_getElem hi] at this
    exact absurd this (by decide)
  · intro hlen s hs
    obtain ⟨i, hi, rfl⟩ := List.getElem_of_mem hs
    rw [h.number_getElem hi, UInt16.le_iff_toNat_le, toNat_numberAt (by omega)]
    exact Nat.le_add_right 5 i

theorem number_lt_five (k : Section) : k.number < 5 := by
  cases k <;> decide

/-- Up to the name with number 65535, an entry is known by its number. -/
theorem Numbered.eq_of_number {l : Layout} (h : l.Numbered) (hw : l.WellFormed)
    (hlen : l.symbols.users.length ≤ 65531) {s r : Symbol} (hs : s ∈ l.symbols.toList)
    (hr : r ∈ l.symbols.toList) (hn : s.number = r.number) : s = r := by
  have hfive := h.five_le_iff.2 hlen
  have hmixed : ∀ {x : Symbol} {k : Section}, x ∈ l.symbols.toList → Identifier.isValid x.name →
      x.number ≠ k.number := by
    intro x k hx hv he
    have h1 := hfive x (SymbolTable.mem_users.2 ⟨hx, hv⟩)
    have h2 := number_lt_five k
    rw [he] at h1
    exact absurd h2 (UInt16.not_lt.2 h1)
  rcases hw.named s hs with hsv | ⟨k, rfl⟩
  · rcases hw.named r hr with hrv | ⟨k, rfl⟩
    · obtain ⟨i, hi, rfl⟩ := List.getElem_of_mem (SymbolTable.mem_users.2 ⟨hs, hsv⟩)
      obtain ⟨j, hj, rfl⟩ := List.getElem_of_mem (SymbolTable.mem_users.2 ⟨hr, hrv⟩)
      rw [h.number_getElem hi, h.number_getElem hj] at hn
      have := congrArg UInt16.toNat hn
      rw [toNat_numberAt (by omega), toNat_numberAt (by omega)] at this
      obtain rfl : i = j := by omega
      rfl
    · exact absurd hn (hmixed hs hsv)
  · rcases hw.named r hr with hrv | ⟨j, rfl⟩
    · exact absurd hn.symm (hmixed hr hrv)
    · rw [Section.number_inj.1 hn]

/-- Numbers tell entries apart and leave those below 5 to the sections exactly up to the name with
number 65535. -/
theorem Numbered.nodup_iff {l : Layout} (h : l.Numbered) (hw : l.WellFormed) :
    ((l.symbols.toList.map Symbol.number).Nodup ∧
      ∀ s ∈ l.symbols.toList, (∀ k : Section, s.name ≠ k.name) → 5 ≤ s.number) ↔
      l.symbols.users.length ≤ 65531 := by
  constructor
  · rintro ⟨-, hall⟩
    refine h.five_le_iff.1 fun s hs => ?_
    obtain ⟨hs, hv⟩ := SymbolTable.mem_users.1 hs
    refine hall s hs fun k he => ?_
    rw [he, Section.isValid_name] at hv
    cases hv
  · intro hlen
    refine ⟨?_, ?_⟩
    · have hnd : l.symbols.toList.Nodup := List.Nodup.of_map _ l.symbols.nodup_names
      exact hnd.map_on fun s hs r hr he => h.eq_of_number hw hlen hs hr he
    · intro s hs hne
      rcases hw.named s hs with hv | ⟨k, rfl⟩
      · exact h.five_le_iff.2 hlen s (SymbolTable.mem_users.2 ⟨hs, hv⟩)
      · exact absurd rfl (hne k)

/-! ### How many names there are -/

theorem Change.name_of_mem {l : Layout} {s : Step} {t : SymbolTable} {n : UInt16}
    (h : Change l s t n) {r : Symbol} (hr : r ∈ t.toList) :
    l.symbols.contains r.name ∨ s.name? = some r.name ∨ ∃ k, r = .ofSection k := by
  have hold : ∀ {x}, x ∈ l.symbols.toList → l.symbols.contains x.name := fun hx =>
    SymbolTable.contains_iff.2 ⟨_, SymbolTable.get?_of_mem hx⟩
  cases h with
  | keep => exact .inl (hold hr)
  | complete x q hx _ hl =>
    rcases SymbolTable.mem_insert.1 hr with rfl | ⟨hr, -⟩
    · exact .inr (.inl (hl.name ▸ hx))
    · exact .inl (hold hr)
  | enter k =>
    rcases SymbolTable.mem_insert.1 hr with rfl | ⟨hr, -⟩
    · exact .inr (.inr ⟨k, rfl⟩)
    · exact .inl (hold hr)
  | add x hx =>
    rcases SymbolTable.mem_insert.1 hr with rfl | ⟨hr, -⟩
    · exact .inr (.inl hx)
    · exact .inl (hold hr)

theorem Takes.name_of_mem {l l' : Layout} {xs : List (Nat × Step)} (h : l.Takes xs l')
    {r : Symbol} (hr : r ∈ l'.symbols.toList) (hv : Identifier.isValid r.name) :
    l.symbols.contains r.name ∨ r.name ∈ xs.filterMap fun x => x.2.name? := by
  induction xs generalizing l with
  | nil =>
    obtain rfl := takes_nil.1 h
    exact .inl (SymbolTable.contains_iff.2 ⟨_, SymbolTable.get?_of_mem hr⟩)
  | cons x xs ih =>
    obtain ⟨hs, h⟩ := takes_cons.1 h
    rcases ih h with hc | hmem
    · obtain ⟨q, hq⟩ := SymbolTable.contains_iff.1 hc
      have hqn : q.name = r.name := SymbolTable.name_of_get? hq
      rcases (take_change hs).name_of_mem (SymbolTable.mem_of_get? hq) with hc | hx | ⟨k, rfl⟩
      · exact .inl (hqn ▸ hc)
      · refine .inr (List.mem_filterMap.2 ⟨x, List.mem_cons_self, ?_⟩)
        rw [← hqn]
        exact hx
      · rw [← hqn] at hv
        have hk : Identifier.isValid k.name := hv
        rw [Section.isValid_name] at hk
        cases hk
    · obtain ⟨y, hy, hyn⟩ := List.mem_filterMap.1 hmem
      exact .inr (List.mem_filterMap.2 ⟨y, List.mem_cons_of_mem x hy, hyn⟩)

/-- From the empty table on, there are as many entries of names as the steps bring up names. -/
theorem Takes.card_names {l : Layout} {xs : List (Nat × Step)} (h : (start .empty).Takes xs l)
    (hn : ∀ x ∈ xs, ∀ n, x.2.name? = some n → Identifier.isValid n) :
    l.symbols.users.length = (xs.filterMap fun x => x.2.name?).toFinset.card := by
  have hnd : (l.symbols.users.map Symbol.name).Nodup :=
    (List.filter_sublist.map Symbol.name).nodup l.symbols.nodup_names
  rw [← List.length_map Symbol.name, ← List.toFinset_card_of_nodup hnd]
  congr 1
  ext n
  rw [List.mem_toFinset, List.mem_toFinset, List.mem_map]
  constructor
  · rintro ⟨s, hs, rfl⟩
    obtain ⟨hs, hv⟩ := SymbolTable.mem_users.1 hs
    rcases h.name_of_mem hs hv with hc | hmem
    · cases hc
    · exact hmem
  · intro hmem
    obtain ⟨x, hx, hxn⟩ := List.mem_filterMap.1 hmem
    obtain ⟨s, hs⟩ := SymbolTable.contains_iff.1 (h.contains hx hxn)
    obtain rfl : s.name = n := SymbolTable.name_of_get? hs
    exact ⟨s, SymbolTable.mem_users.2 ⟨SymbolTable.mem_of_get? hs, hn x hx _ hxn⟩, rfl⟩

end Layout

end SS16
