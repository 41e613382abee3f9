import SS16.Proofs.Emission.Fragments

/-!
# SS16.Proofs.Emission.Elements — data element by element

Elements of data can be split at any place: those behind it start at the address that those before it
lead to.  Main statements: `Width.fragmentsFrom_append` and `Width.fragmentsFrom_add`.
-/

namespace SS16

namespace Width

theorem fragmentsFrom_append (w : Width) (symbols : SymbolTable) (loc : UInt16)
    (xs ys : List String) (i : Nat) :
    w.fragmentsFrom symbols loc (xs ++ ys) i =
      (w.fragmentsFrom symbols loc xs i).append (w.fragmentsFrom symbols loc ys (i + xs.length)) := by
  unfold fragmentsFrom
  rw [List.zipIdx_append, List.map_append, Fragment.join_append]

theorem fragmentsFrom_add (w : Width) (symbols : SymbolTable) (loc : UInt16) (args : List String)
    (i j : Nat) :
    w.fragmentsFrom symbols loc args (i + j) =
      w.fragmentsFrom symbols (loc + UInt16.ofNat (i * w.size)) args j := by
  induction args generalizing j with
  | nil => rfl
  | cons arg args ih =>
    rw [fragmentsFrom_cons, fragmentsFrom_cons, Nat.add_assoc, ih, Nat.add_mul, UInt16.ofNat_add,
      UInt16.add_assoc]

end Width

theorem Statement.fragment_data {p : Place} (hp : p.kind.hasContents) (w : Width)
    (symbols : SymbolTable) (args : List String) :
    (Statement.data w args).fragment symbols p = w.fragmentsFrom symbols p.location args 0 := by
  unfold Statement.fragment
  dsimp only
  rw [hp, Bool.not_true, Bool.and_false, if_neg Bool.false_ne_true]
  rfl

end SS16
