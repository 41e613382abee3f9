import SS16.Proofs.InstructionEncoding
import SS16.Proofs.Layout.Checks
import SS16.Proofs.Source.Sizes

/-!
# SS16.Proofs.EncodingFaults — what is left to go wrong in the second sweep

Once a source is laid out, all its names have targets, all its operands can be read and all its
bytes fit, so only the encoding of a statement can fail.  Main statement: `misencodes_of_emit`.
-/

namespace SS16

/-- The faults of encoding, each with the statements that it can be found in. -/
inductive Statement.Misencodes : Statement → Fault → Prop
  | arity (m : Mnemonic) (args : List String) (h : args.length ≠ m.operation.arity) :
    Misencodes (.instruction m args) (.arity m args.length)
  | twoExtraWords (m : Mnemonic) (args : List String) :
    Misencodes (.instruction m args) .twoExtraWords
  | immediateDestination (m : Mnemonic) (args : List String) :
    Misencodes (.instruction m args) (.immediateDestination m)
  | instructionIn (m : Mnemonic) (args : List String) (k : Section) (h : k ≠ .text) :
    Misencodes (.instruction m args) (.instructionIn k)
  | literalOverflow (w : Width) (args : List String) (arg : String) (h : arg ∈ args) :
    Misencodes (.data w args) (.literalOverflow arg w.size)
  | dataInBss (w : Width) (args : List String) : Misencodes (.data w args) .dataInBss

theorem SymbolTable.exists_target {symbols : SymbolTable} {n : String}
    (hu : Layout.unresolved? symbols = none) (hn : symbols.contains n) :
    ∃ t, symbols.target n = .ok t := by
  obtain ⟨s, hs⟩ := contains_iff.1 hn
  unfold target
  rw [hs]
  dsimp only
  by_cases hg : s.isGlobal
  · rw [if_pos hg]
    exact ⟨_, rfl⟩
  · rw [if_neg hg]
    have hd := (Layout.isDefined_or_isGlobal hu (mem_of_get? hs)).resolve_right hg
    obtain ⟨k, hk⟩ := Option.isSome_iff_exists.1 hd
    rw [hk]
    exact ⟨_, rfl⟩

namespace Width

theorem fault_of_fragment {w : Width} {symbols : SymbolTable} {loc : UInt16} {arg : String}
    {f : Fault} (ht : Numeral.integer? arg = none → ∃ t, symbols.target arg = .ok t)
    (h : (w.fragment symbols loc arg).bytes = .error f) : f = .literalOverflow arg w.size := by
  unfold fragment at h
  cases hv : Numeral.integer? arg with
  | some v =>
    rw [hv] at h
    exact element_eq_error h
  | none =>
    obtain ⟨t, ht⟩ := ht hv
    rw [hv, ht] at h
    exact element_eq_error h

end Width

namespace Statement

theorem misencodes_of_fragment {s : Statement} {symbols : SymbolTable} {p : Place} {f : Fault}
    (hu : Layout.unresolved? symbols = none) (hc : s.Checked symbols p)
    (h : (s.fragment symbols p).bytes = .error f) : s.Misencodes f := by
  cases s with
  | data w args =>
    obtain ⟨hnames, -⟩ := hc
    unfold fragment at h
    dsimp only at h
    split_ifs at h
    · cases h
      exact .dataInBss w args
    · obtain ⟨part, hpart, hf⟩ := Fragment.exists_of_join_eq_error h
      obtain ⟨⟨arg, i⟩, harg, rfl⟩ := List.mem_map.1 hpart
      have hmem : arg ∈ args := List.fst_mem_of_mem_zipIdx harg
      obtain rfl := Width.fault_of_fragment
        (fun hn => SymbolTable.exists_target hu (hnames arg hmem hn)) hf
      exact .literalOverflow w args arg hmem
  | instruction m args =>
    obtain ⟨ops, hops, hnames, -⟩ := hc
    unfold fragment at h
    dsimp only at h
    split_ifs at h with hk
    · cases he : m.encode symbols p.location args with
      | ok e =>
        rw [he] at h
        cases h
      | error f' =>
        rw [he] at h
        cases h
        have ht : ∀ op ∈ ops, ∀ n ∈ op.named, ∃ t, symbols.target n = .ok t := fun op hop n hn =>
          SymbolTable.exists_target hu (hnames op hop n (Operand.mem_named_iff.1 hn))
        rcases Mnemonic.fault_of_encode hops ht he with ⟨hne, rfl⟩ | rfl | rfl
        · exact .arity m args hne
        · exact .twoExtraWords m args
        · exact .immediateDestination m args
    · cases h
      exact .instructionIn m args p.kind hk
  | align n =>
    -- the first sweep has found the multiple
    unfold fragment at h
    dsimp only at h
    have hc : ((alignUp p.location n).map (Place.mk p.kind)).isSome := hc
    cases ha : alignUp p.location n with
    | none => simp [ha] at hc
    | some a =>
      rw [ha] at h
      cases h
  | _ => cases h

/-- The bytes of a statement that has been checked fit into its section, unless there are so many
elements of data that their count wraps around. -/
theorem Puts.fits {s : Statement} {symbols : SymbolTable} {p : Place} {rs : List Relocation}
    {bs : List UInt8} (h : s.Puts symbols p rs bs) (ho : s.occupies) (hc : s.Checked symbols p)
    (hw : ∀ w args, s = .data w args → args.length * w.size < 2 ^ 32) :
    (p.advance? bs.length).isSome := by
  cases h with
  | data w args _ _ _ h =>
    obtain ⟨-, hfit⟩ := hc
    rw [toNat_dataSize (hw w args rfl)] at hfit
    rw [Width.length_of_fragmentsFrom h]
    exact hfit
  | skip n =>
    rw [List.length_replicate]
    exact hc
  | align n a ha =>
    have hle := le_of_alignUp ha
    have hlt := a.toNat_lt
    have hfits : p.location.toNat + (a.toNat - p.location.toNat) < UInt16.size := by
      show _ < 65536
      omega
    rw [List.length_replicate, Place.advance?, if_pos hfits]
    rfl
  | instruction m args ops e _ hops hlen he =>
    obtain ⟨ops', hops', -, hfit⟩ := hc
    obtain rfl : ops = ops' := Except.ok.inj (hops.symm.trans hops')
    rw [Mnemonic.length_of_encodeOperands hlen he]
    exact hfit
  | nothing _ hn =>
    rw [hn] at ho
    cases ho

end Statement

theorem Width.size_le_four (w : Width) : w.size ≤ 4 := by
  cases w <;> decide

/-- A source that is laid out and has less than 2 ^ 31 bytes can only be refused by the second sweep
for a statement that cannot be encoded: an instruction with the wrong number of operands, with two
extra words, with an immediate destination or outside of `.text`, or data that are too large or
stand in `.bss`. -/
theorem misencodes_of_emit {source : String} (hsize : source.utf8ByteSize < 2 ^ 31)
    {sections : List Extent}
    (hlaid : ((Program.ofSource source).layout .empty).sections = .ok sections)
    {l : Located}
    (h : ((Program.ofSource source).emit ((Program.ofSource source).layout .empty).symbols
      .fresh).2 = some l) :
    ∃ line ∈ (Program.ofSource source).lines, ∃ s, line.statement = some s ∧
      l.row = some line.row ∧ s.Misencodes l.fault := by
  obtain ⟨laid, ht, hu, -, hsymbols⟩ := Program.layout_eq_ok_iff.1 hlaid
  have hw := Program.wellFormed_of_takes ht
  obtain ⟨ht, hfault⟩ := Program.takes_steps_iff.1 ht
  rw [hsymbols] at h
  obtain ⟨out, hemit⟩ := Program.exists_of_emit_eq_some hfault h
  obtain ⟨xs, line, ys, mid, here, f, hsplit, hmid, hf, rfl⟩ :=
    Output.exists_of_emit_eq_error hemit
  have hmem : line ∈ (Program.ofSource source).lines := by
    rw [hsplit]
    exact List.mem_append_right _ List.mem_cons_self
  rw [hsplit] at ht
  obtain ⟨m, htx, hty⟩ := Layout.takes_lines_append.1 ht
  obtain ⟨rfl, -⟩ := (Layout.inStep_start .empty).emits (hty.nodup_of_lines hw.nodup) htx hmid
  obtain ⟨m', hline, hrest⟩ := Layout.takes_lines_cons.1 hty
  obtain ⟨s, hs, ho, hcase⟩ := Line.fault_of_effect hf
  refine ⟨line, hmem, s, hs, rfl, ?_⟩
  obtain ⟨p, hp, hchecked⟩ := hline.checked hs ho
  have hchecked := hchecked.grows hrest.grows
  rcases hcase with hnone | ⟨q, hq, hbytes | ⟨rs, bs, hbs, hfull⟩⟩
  · rw [hp] at hnone
    cases hnone
  · obtain rfl : p = q := Option.some.inj (hp.symm.trans hq)
    exact Statement.misencodes_of_fragment hu hchecked hbytes
  · obtain rfl : p = q := Option.some.inj (hp.symm.trans hq)
    have hfit := (Statement.puts_of_fragment hbs).fits ho hchecked fun w args he => ?_
    · rw [hfull] at hfit
      cases hfit
    · have htwo := Program.two_mul_length_args hmem (he ▸ hs)
      have hfour := Nat.mul_le_mul_left args.length w.size_le_four
      omega

theorem misencodes_of_emit_missing_operand :
    ∃ line ∈ (Program.ofSource ".text\nmov r1").lines, ∃ s, line.statement = some s ∧
      some 1 = some line.row ∧ s.Misencodes (.arity ⟨.always, .machine .mov⟩ 1) := by
  obtain ⟨sections, hlaid⟩ := Results.exists_of_isSome
    (x := ((Program.ofSource ".text\nmov r1").layout .empty).sections) (by decide +kernel)
  exact misencodes_of_emit (by decide) hlaid
    (l := ⟨some 1, .arity ⟨.always, .machine .mov⟩ 1⟩) (by decide +kernel)

end SS16
