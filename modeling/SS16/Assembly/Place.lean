import SS16.Fault

/-!
# SS16.Assembly.Place — the location counter

A place is an open section and the address of its next byte.  Addresses have 16 bits; a step past
the last one overflows the section.  Main statements: `alignUp_eq_some_iff` (an aligned address is
the least multiple that is not below) and `Place.advance?_eq_some_iff`.
-/

namespace SS16

/-- The least multiple of `n` from an address on, if it is still an address.  Nothing is asked for
when `n` is 0 or 1. -/
def alignUp (location n : UInt16) : Option UInt16 :=
  if n ≤ 1 then some location
  else
    let m := (location.toNat + n.toNat - 1) / n.toNat * n.toNat
    if m < UInt16.size then some (UInt16.ofNat m) else none

theorem alignUp_of_le_one {location n : UInt16} (h : n ≤ 1) : alignUp location n = some location :=
  if_pos h

theorem alignUp_eq_some_iff {location n a : UInt16} (h : 1 < n) :
    alignUp location n = some a ↔
      n.toNat ∣ a.toNat ∧ location ≤ a ∧ a.toNat < location.toNat + n.toNat := by
  have hn : 1 < n.toNat := by simpa [UInt16.lt_iff_toNat_lt] using h
  have hle : ¬ n ≤ 1 := by simpa [UInt16.le_iff_toNat_le] using hn
  have ha : a.toNat < UInt16.size := a.toNat_lt
  rw [alignUp, if_neg hle, UInt16.le_iff_toNat_le]
  dsimp only
  generalize hm : (location.toNat + n.toNat - 1) / n.toNat * n.toNat = m
  have hdvd : n.toNat ∣ m := ⟨_, by rw [← hm, Nat.mul_comm]⟩
  have hdiv := Nat.div_add_mod (location.toNat + n.toNat - 1) n.toNat
  have hmod := Nat.mod_lt (location.toNat + n.toNat - 1) (Nat.lt_trans Nat.zero_lt_one hn)
  rw [Nat.mul_comm, hm] at hdiv
  have huniq : ∀ b, n.toNat ∣ b → location.toNat ≤ b → b < location.toNat + n.toNat → b = m := by
    rintro _ ⟨k, rfl⟩ hk1 hk2
    obtain ⟨l, rfl⟩ := hdvd
    have h1 : n.toNat * k < n.toNat * (l + 1) := by rw [Nat.mul_succ]; omega
    have h2 : n.toNat * l < n.toNat * (k + 1) := by rw [Nat.mul_succ]; omega
    have h3 := Nat.lt_of_mul_lt_mul_left h1
    have h4 := Nat.lt_of_mul_lt_mul_left h2
    rw [show k = l by omega]
  constructor
  · intro he
    by_cases hs : m < UInt16.size
    · rw [if_pos hs, Option.some.injEq] at he
      subst he
      rw [UInt16.toNat_ofNat_of_lt' hs]
      exact ⟨hdvd, by omega, by omega⟩
    · simp [hs] at he
  · rintro ⟨h1, h2, h3⟩
    have hb := huniq _ h1 h2 h3
    rw [← hb, if_pos ha]
    simp

/-- An open section and the address of its next byte. -/
structure Place where
  kind : Section
  location : UInt16
  deriving DecidableEq

namespace Place

def start (kind : Section) : Place := ⟨kind, 0⟩

def advance? (p : Place) (n : Nat) : Option Place :=
  if p.location.toNat + n < UInt16.size then some ⟨p.kind, p.location + UInt16.ofNat n⟩ else none

def align? (p : Place) (n : UInt16) : Option Place :=
  (alignUp p.location n).map (Place.mk p.kind)

def overflow (p : Place) : Fault := .sectionOverflow p.kind

def extent (p : Place) : Extent := Extent.unplaced p.kind p.location

theorem advance?_eq_some_iff {p q : Place} {n : Nat} :
    p.advance? n = some q ↔ q.kind = p.kind ∧ q.location.toNat = p.location.toNat + n := by
  obtain ⟨k, l⟩ := p
  obtain ⟨k', l'⟩ := q
  have hl : l'.toNat < UInt16.size := l'.toNat_lt
  by_cases h : l.toNat + n < UInt16.size
  · have hn : (UInt16.ofNat n).toNat = n := UInt16.toNat_ofNat_of_lt' (by omega)
    have hs : (l + UInt16.ofNat n).toNat = l.toNat + n := by
      rw [UInt16.toNat_add, hn]
      exact Nat.mod_eq_of_lt h
    simp only [advance?, if_pos h, Option.some.injEq, Place.mk.injEq, ← UInt16.toNat_inj, hs]
    constructor
    · rintro ⟨rfl, hl⟩
      exact ⟨rfl, hl.symm⟩
    · rintro ⟨rfl, hl⟩
      exact ⟨rfl, hl.symm⟩
  · simp only [advance?, if_neg h, reduceCtorEq, false_iff, not_and]
    omega

end Place

end SS16
