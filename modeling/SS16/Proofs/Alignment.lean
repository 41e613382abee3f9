import Mathlib.Order.Bounds.Basic
import SS16.Proofs.Declarations
import SS16.Proofs.Emission.Sweep

/-!
# SS16.Proofs.Alignment — aligned addresses

An address is aligned to the least multiple that is not below it, by fewer bytes than the multiple
counts, and an aligned one stays where it is.  So a second `.align` of the same number moves neither
sweep.  Main statements: `isLeast_roundUp`, `alignUp_eq_none_iff`, `alignUp_self` and
`alignUp_least`.
-/

namespace SS16

/-! ### Numbers -/

theorem isLeast_roundUp (size : Nat) {n : Nat} (hn : 1 < n) :
    IsLeast {m | n ∣ m ∧ size ≤ m} (roundUp size n) := by
  have hpos : 0 < n := Nat.lt_trans Nat.zero_lt_one hn
  have hround : roundUp size n = n * ((size + n - 1) / n) := by
    unfold roundUp
    rw [if_neg (Nat.not_le.2 hn), Nat.mul_comm]
  have hdiv := Nat.div_add_mod (size + n - 1) n
  have hmod := Nat.mod_lt (size + n - 1) hpos
  rw [hround]
  refine ⟨⟨Dvd.intro _ rfl, by omega⟩, ?_⟩
  rintro m ⟨⟨k, rfl⟩, hk⟩
  -- rounding up takes no more copies of `n` than any multiple that is large enough
  have hlt : size + n - 1 < n * (k + 1) := by
    rw [Nat.mul_succ]
    omega
  exact Nat.mul_le_mul_left n (Nat.le_of_lt_succ (Nat.div_lt_of_lt_mul hlt))

theorem roundUp_lt {size n : Nat} (hn : 0 < n) : roundUp size n < size + n := by
  unfold roundUp
  split_ifs
  · omega
  · have hle := Nat.div_mul_le_self (size + n - 1) n
    omega

theorem alignUp_eq_none_iff {location n : UInt16} :
    alignUp location n = none ↔ 65535 < roundUp location.toNat n.toNat := by
  constructor
  · intro h
    by_contra hle
    have hlt : roundUp location.toNat n.toNat < UInt16.size :=
      Nat.lt_succ_of_le (Nat.not_lt.1 hle)
    have hsome : alignUp location n = some (UInt16.ofNat (roundUp location.toNat n.toNat)) :=
      alignUp_eq_some_iff_roundUp.2 (UInt16.toNat_ofNat_of_lt' hlt)
    cases h.symm.trans hsome
  · intro h
    cases ha : alignUp location n with
    | none => rfl
    | some a =>
      rw [← alignUp_eq_some_iff_roundUp.1 ha] at h
      have hlt := a.toNat_lt
      omega

theorem alignUp_self {location n a : UInt16} (h : alignUp location n = some a) :
    alignUp a n = some a := by
  by_cases hn : n ≤ 1
  · exact alignUp_of_le_one hn
  · have hn := UInt16.not_le.1 hn
    obtain ⟨hdvd, -, -⟩ := (alignUp_eq_some_iff hn).1 h
    have hlt : 1 < n.toNat := UInt16.lt_iff_toNat_lt.1 hn
    exact (alignUp_eq_some_iff hn).2 ⟨hdvd, UInt16.le_refl a, by omega⟩

theorem Place.align?_self {p q : Place} {n : UInt16} (h : p.align? n = some q) :
    q.align? n = some q := by
  obtain ⟨a, ha, rfl⟩ := Option.map_eq_some_iff.1 h
  unfold align?
  rw [alignUp_self ha]
  rfl

/-! ### The first sweep -/

namespace Layout

theorem take_align_again {l : Layout} {n : UInt16} (h : l.refusal? (.align n) = none) :
    (l.take (.align n)).refusal? (.align n) = none ∧
      (l.take (.align n)).take (.align n) = l.take (.align n) := by
  have hfits := moveRefusal?_eq_none_iff.1 h
  obtain ⟨symbols, closed, place, next⟩ := l
  cases place with
  | none => exact ⟨rfl, rfl⟩
  | some p =>
    obtain ⟨q, hq⟩ := Option.isSome_iff_exists.1 (hfits p rfl)
    have htake : (Layout.mk symbols closed (some p) next).take (.align n) =
        ⟨symbols, closed, some q, next⟩ := by
      show Layout.mk symbols closed (some ((p.align? n).getD p)) next = _
      rw [hq]
      rfl
    have hagain := Place.align?_self hq
    rw [htake]
    refine ⟨moveRefusal?_eq_none_iff.2 fun r hr => ?_, ?_⟩
    · cases hr
      rw [hagain]
      rfl
    · show Layout.mk symbols closed (some ((q.align? n).getD q)) next = _
      rw [hagain]
      rfl

theorem Takes.align_again {l l' : Layout} {row : Nat} {labels : List String} {n : UInt16}
    (h : l.Takes (Line.mk row labels (some (.align n))).located l') (row' : Nat) :
    l'.Takes (Line.mk row' [] (some (.align n))).located l' := by
  have hsteps : (Line.mk row labels (some (.align n))).located =
      (labels.map fun name => (row, Step.set name)) ++
        [(row, .require Keyword.align.text)] ++ [(row, .align n)] := by
    simp [Line.located, Line.steps, Statement.steps]
  rw [hsteps] at h
  obtain ⟨m, hm, hlast⟩ := takes_append.1 h
  obtain ⟨k, -, hk⟩ := takes_append.1 hm
  obtain ⟨hopen, rfl⟩ := takes_singleton.1 hk
  obtain ⟨halign, rfl⟩ := takes_singleton.1 hlast
  obtain ⟨hrefusal, htake⟩ := take_align_again halign
  have hplace : (k.take (.align n)).place.isSome := by
    rw [place_take, Step.next, Option.isSome_map]
    exact isSome_place_of_needsPlace hopen rfl
  have hstill : (k.take (.align n)).refusal? (.require Keyword.align.text) = none := if_pos hplace
  exact takes_cons.2 ⟨hstill, takes_singleton.2 ⟨hrefusal, htake⟩⟩

end Layout

/-! ### The second sweep -/

/-- An aligned place is filled up to with zeros. -/
theorem Statement.fragment_align {p q : Place} {n : UInt16} (h : p.align? n = some q)
    (symbols : SymbolTable) :
    (align n).fragment symbols p =
      ⟨[], .ok (List.replicate (q.location.toNat - p.location.toNat) 0)⟩ := by
  obtain ⟨a, ha, rfl⟩ := Option.map_eq_some_iff.1 h
  unfold fragment
  dsimp only
  rw [ha]
  rfl

theorem Line.Lays.align? {symbols : SymbolTable} {row : Nat} {labels : List String} {n : UInt16}
    {out out' : Output} {here there : Option Place}
    (h : (Line.mk row labels (some (.align n))).Lays symbols out here out' there) :
    ∃ p q, here = some p ∧ there = some q ∧ p.align? n = some q := by
  cases h with
  | pass _ hp => cases (hp _ rfl).1
  | enter _ k hk => cases hk
  | put p q s rs bs hs ho hf hq =>
    cases hs
    refine ⟨p, q, rfl, rfl, ?_⟩
    cases Statement.puts_of_fragment hf with
    | align _ a ha =>
      obtain ⟨hkind, hlocation⟩ := Place.advance?_eq_some_iff.1 hq
      have hle := le_of_alignUp ha
      rw [List.length_replicate] at hlocation
      have hqa : q.location = a := UInt16.toNat_inj.1 (by omega)
      unfold Place.align?
      rw [ha, Option.map_some, ← hkind, ← hqa]
    | nothing _ hn => cases hn

theorem Output.Emits.align_again {symbols : SymbolTable} {row : Nat} {labels : List String}
    {n : UInt16} {out out' : Output} {here there : Option Place}
    (h : out.Emits symbols here [⟨row, labels, some (.align n)⟩] out' there) (row' : Nat) :
    ∃ out'', out'.Emits symbols there [⟨row', [], some (.align n)⟩] out'' there ∧
      out''.relocations = out'.relocations ∧ ∀ k, out''.code.get k = out'.code.get k := by
  obtain ⟨mid, m, hline, hnil⟩ := emits_cons.1 h
  obtain ⟨rfl, rfl⟩ := emits_nil.1 hnil
  obtain ⟨p, q, -, rfl, hq⟩ := hline.align?
  have hfragment := Statement.fragment_align (Place.align?_self hq) symbols
  rw [Nat.sub_self] at hfragment
  have hstay : q.advance? 0 = some q := Place.advance?_eq_some_iff.2 ⟨rfl, rfl⟩
  refine ⟨mid.put row' q [] [], emits_cons.2 ⟨_, _, .put mid q q _ [] [] rfl rfl hfragment hstay,
    emits_nil.2 ⟨rfl, rfl⟩⟩, mid.relocations_put row' q [] [], fun k => ?_⟩
  rw [get_code_put, ite_self, List.append_nil]

/-- An address is aligned to the least multiple that is not below it, if there is one of 16 bits, and
stays as it is for the multiples of 0 and 1.  The padding in front of it has fewer than `n` bytes.
After a line of `.align` another one of the same number moves neither sweep and lays nothing down. -/
theorem alignUp_least (location n : UInt16) :
    (n ≤ 1 → alignUp location n = some location) ∧
    (1 < n → ∃ m, IsLeast {m : Nat | n.toNat ∣ m ∧ location.toNat ≤ m} m ∧
      (∀ a, alignUp location n = some a ↔ a.toNat = m) ∧
      (alignUp location n = none ↔ 65535 < m)) ∧
    (∀ a, alignUp location n = some a → alignUp a n = some a ∧
      ∃ padding, location.toNat + padding = a.toNat ∧ (0 < n → padding < n.toNat) ∧
        ∀ symbols k, (Statement.align n).fragment symbols ⟨k, location⟩ =
          ⟨[], .ok (List.replicate padding 0)⟩) ∧
    (∀ (l l' : Layout) row labels, l.Takes (Line.mk row labels (some (.align n))).located l' →
      ∀ row', l'.Takes (Line.mk row' [] (some (.align n))).located l') ∧
    ∀ symbols k row labels (out out' : Output) there,
      out.Emits symbols (some ⟨k, location⟩) [⟨row, labels, some (.align n)⟩] out' there →
      ∀ row', ∃ out'', out'.Emits symbols there [⟨row', [], some (.align n)⟩] out'' there ∧
        out''.relocations = out'.relocations ∧ ∀ k, out''.code.get k = out'.code.get k := by
  refine ⟨alignUp_of_le_one, fun hn => ?_, fun a ha => ?_, fun _ _ _ _ h => h.align_again,
    fun _ _ _ _ _ _ _ h => h.align_again⟩
  · exact ⟨_, isLeast_roundUp _ (UInt16.lt_iff_toNat_lt.1 hn), fun a => alignUp_eq_some_iff_roundUp,
      alignUp_eq_none_iff⟩
  · have hle := le_of_alignUp ha
    have hround := alignUp_eq_some_iff_roundUp.1 ha
    refine ⟨alignUp_self ha, a.toNat - location.toNat, Nat.add_sub_of_le hle, fun hn => ?_,
      fun symbols k => ?_⟩
    · have hn : 0 < n.toNat := UInt16.lt_iff_toNat_lt.1 hn
      have hlt : roundUp location.toNat n.toNat < location.toNat + n.toNat := roundUp_lt hn
      omega
    · exact Statement.fragment_align (p := ⟨k, location⟩) (q := ⟨k, a⟩)
        (by rw [Place.align?, ha]; rfl) symbols

example : alignUp 65530 7 = some 65534 ∧ alignUp 65530 8 = none ∧ alignUp 65534 7 = some 65534 := by
  decide

end SS16
