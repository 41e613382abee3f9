import SS16.Proofs.Emission.Sweep

/-!
# SS16.Proofs.Addresses — the two sweeps agree on every address

The first sweep counts bytes from the shapes of statements, the second one lays them down.  Main
statement: `addresses_of_assemble` (labels and sections lie where the second sweep puts them).
-/

namespace SS16

/-- Between any two lines of a source that is assembled, the second sweep is at the place that the
first one was at, with as much laid down as that one had counted. -/
theorem inStep_of_assemble {source : String} {a : Assembly} (h : assemble source = .ok a)
    {xs ys : List Line} (hl : (Program.ofSource source).lines = xs ++ ys) :
    ∃ m l mid out, (Layout.start .empty).Takes (xs.flatMap Line.located) m ∧
      m.Takes (ys.flatMap Line.located) l ∧ l.WellFormed ∧
      Output.fresh.Emits l.symbols none xs mid m.place ∧
      mid.Emits l.symbols m.place ys out l.place ∧ m.InStep mid ∧ l.InStep out ∧
      a = .ofOutput l.extents l.symbols out := by
  obtain ⟨l, out, there, ht, hf, -, he, ha⟩ := Program.assemble_eq_ok_iff.1 h
  have hw := Program.wellFormed_of_takes (Program.takes_steps_iff.2 ⟨ht, hf⟩)
  rw [hl] at he ht
  obtain ⟨m, ht1, ht2⟩ := Layout.takes_lines_append.1 ht
  obtain ⟨mid, here, he1, he2⟩ := Output.emits_append.1 he
  obtain ⟨rfl, hm⟩ := (Layout.inStep_start .empty).emits (ht2.nodup_of_lines hw.nodup) ht1 he1
  obtain ⟨rfl, hout⟩ := hm.emits hw.nodup ht2 he2
  exact ⟨m, l, mid, out, ht1, ht2, hw, he1, he2, hm, hout, ha⟩

/-- The two sweeps agree on every address.  In a source that is assembled, a label is defined in the
section that the second sweep has open in front of the label's line, at the place it has come to,
which is as many bytes as it has laid down there.  There is one section for each directive, in
order, and its length is the place where the second sweep leaves it and the number of bytes it
holds; a section that is never opened holds none, nor does `.bss`. -/
theorem addresses_of_assemble {source : String} {a : Assembly} (h : assemble source = .ok a) :
    (∀ xs line ys, (Program.ofSource source).lines = xs ++ line :: ys →
      ∃ out here, Output.fresh.Emits a.object.symbols none xs out here ∧
        ∀ n ∈ line.labels, ∃ p s, here = some p ∧ a.object.symbols.get? n = some s ∧
          s.home = some p.kind ∧ s.offset = p.location ∧
          (p.kind.hasContents → (out.code.get p.kind).length = p.location.toNat)) ∧
    a.object.sections.map Extent.kind = (Program.ofSource source).lines.filterMap Line.opens? ∧
    (∀ xs line k body rest, (Program.ofSource source).lines = xs ++ line :: body ++ rest →
      line.opens? = some k → (∀ b ∈ body, b.opens? = none) →
      (∀ r ∈ rest.head?, r.opens?.isSome) →
      ∃ out p, Output.fresh.Emits a.object.symbols none (xs ++ line :: body) out (some p) ∧
        p.kind = k ∧
        (∃ e, a.object.sections[(xs.filterMap Line.opens?).length]? = some e ∧ e.kind = k ∧
          e.address = 0 ∧ e.length = p.location) ∧
        (k.hasContents → (a.object.contents k).length = p.location.toNat)) ∧
    ∀ k, (k ∉ (Program.ofSource source).lines.filterMap Line.opens? ∨ k.hasContents = false) →
      a.object.contents k = [] := by
  refine ⟨?_, ?_, ?_, ?_⟩
  · intro xs line ys hl
    obtain ⟨m, l, mid, out, -, ht, -, he, -, hm, -, rfl⟩ := inStep_of_assemble h hl
    refine ⟨mid, m.place, he, fun n hn => ?_⟩
    obtain ⟨m₁, hline, hrest⟩ := Layout.takes_lines_cons.1 ht
    obtain ⟨p, s, hp, hs, hhome, hoffset⟩ := hline.symbol_of_mem_labels hn
    obtain ⟨r, hr, hlater⟩ := hrest.grows.get? hs
    obtain ⟨h1, h2⟩ := hlater.defined (Symbol.isDefined_of_home hhome)
    exact ⟨p, r, hp, hr, h1.trans hhome, h2.trans hoffset, hm.length_place hp⟩
  · obtain ⟨m, l, mid, out, ht, ht', -, -, -, -, -, rfl⟩ :=
      inStep_of_assemble h (List.append_nil _).symm
    obtain rfl := Layout.takes_nil.1 ht'
    exact ht.kinds_of_start
  · intro xs line k body rest hl hk hbody hrest
    obtain ⟨m, l, mid, out, ht, ht', -, he, -, -, hout, rfl⟩ := inStep_of_assemble h hl
    obtain ⟨m₁, ht1, ht2⟩ := Layout.takes_lines_append.1 ht
    obtain ⟨p, hp, hpk, hext⟩ := ht2.extents_of_opens? hk hbody
    obtain ⟨tail, htail⟩ := ht'.extents_prefix hrest
    have hlen : (xs.filterMap Line.opens?).length = m₁.extents.length := by
      rw [← ht1.kinds_of_start, List.length_map]
    have hmem : l.extents[m₁.extents.length]? = some p.extent := by
      rw [← htail, hext, List.append_assoc]
      simp
    refine ⟨mid, p, hp ▸ he, hpk, ?_, fun hc => ?_⟩
    · rw [hlen]
      exact ⟨p.extent, hmem, hpk, rfl, rfl⟩
    · subst hpk
      exact hout.length p.extent (List.mem_of_getElem? hmem) hc
  · intro k hk
    obtain ⟨m, l, mid, out, ht, ht', -, -, -, -, hout, rfl⟩ :=
      inStep_of_assemble h (List.append_nil _).symm
    obtain rfl := Layout.takes_nil.1 ht'
    refine hout.empty k (hk.imp_left fun hne hmem => hne ?_)
    rwa [ht.kinds_of_start] at hmem

theorem addresses_of_assemble_data_and_text :
    ∃ a, assemble ".data\nx: .word 5, y\n.text\ny: mov r1, $x" = .ok a ∧
      a.object.sections.map Extent.kind = [.data, .text] ∧
      (∃ e, a.object.sections[0]? = some e ∧ e.kind = .data ∧ e.address = 0 ∧
        e.length.toNat = (a.object.contents .data).length) ∧
      a.object.contents .rodata = [] := by
  obtain ⟨a, h⟩ := Results.exists_of_isSome
    (x := assemble ".data\nx: .word 5, y\n.text\ny: mov r1, $x") (by decide +kernel)
  have hlines : (Program.ofSource ".data\nx: .word 5, y\n.text\ny: mov r1, $x").lines =
      [] ++ ⟨0, [], some (.enter .data)⟩ :: [⟨1, ["x"], some (.data .word ["5", "y"])⟩] ++
        [⟨2, [], some (.enter .text)⟩,
          ⟨3, ["y"], some (.instruction ⟨.always, .machine .mov⟩ ["r1", "$x"])⟩] := by
    decide +kernel
  obtain ⟨-, hkinds, hsections, hempty⟩ := addresses_of_assemble h
  obtain ⟨out, p, -, -, ⟨e, he, hkind, haddress, hlen⟩, hlength⟩ :=
    hsections _ _ .data _ _ hlines rfl (by decide) (by decide)
  refine ⟨a, h, ?_, ⟨e, he, hkind, haddress, ?_⟩, hempty .rodata (.inl ?_)⟩
  · rw [hkinds, hlines]
    rfl
  · rw [hlen, hlength rfl]
  · rw [hlines]
    decide

end SS16
