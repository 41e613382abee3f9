import SS16.Proofs.Emission.Fragments
import SS16.Proofs.Layout.Acceptance
import SS16.Proofs.Source.Sizes
import Mathlib.Data.List.Dedup

/-!
# SS16.Proofs.Declarations — the first sweep, read off the text

Which sources are laid out and what their symbol tables hold, said of the lines without a layout:
the place of a label is the section last opened in front of it and the bytes counted since then.
Main statements: `Line.along_fits_iff_sizes` (room in a section is a matter of sizes),
`Layout.Takes.declares` and `exists_layout_iff_wellDeclared`.
-/

namespace SS16

/-! ### Running sizes -/

/-- The least multiple of `n` from a size on.  Nothing is asked for when `n` is 0 or 1. -/
def roundUp (size n : Nat) : Nat :=
  if n ≤ 1 then size else (size + n - 1) / n * n

theorem alignUp_eq_some_iff_roundUp {location n a : UInt16} :
    alignUp location n = some a ↔ a.toNat = roundUp location.toNat n.toNat := by
  have hle : n ≤ 1 ↔ n.toNat ≤ 1 := UInt16.le_iff_toNat_le
  unfold alignUp roundUp
  by_cases hn : n ≤ 1
  · rw [if_pos hn, if_pos (hle.1 hn), Option.some.injEq, ← UInt16.toNat_inj, eq_comm]
  · rw [if_neg hn, if_neg fun h => hn (hle.2 h)]
    dsimp only
    have ha : a.toNat < UInt16.size := a.toNat_lt
    split_ifs with hm
    · rw [Option.some.injEq, ← UInt16.toNat_inj, UInt16.toNat_ofNat_of_lt' hm, eq_comm]
    · simp only [false_iff]
      omega

namespace Operand

/-- Whether the operand is a register, under either of its names. -/
def isRegister : Operand → Bool
  | register _ | pointer _ => true
  | _ => false

theorem instructionSize_eq_ite (ops : List Operand) :
    instructionSize ops = if ops.all isRegister then 2 else 4 := by
  have hextra : ∀ op : Operand, op.hasExtra = !op.isRegister := by
    intro op
    cases op with
    | indexed r d => cases d <;> rfl
    | _ => rfl
  unfold instructionSize
  rw [funext hextra, ← List.not_all_eq_any_not]
  cases ops.all isRegister <;> rfl

end Operand

namespace Statement

/-- The bytes of the open section after a statement, from those before it.  An instruction takes two,
and two more for an operand that is no register. -/
def sizeAfter (size : Nat) : Statement → Nat
  | enter _ => 0
  | data .char args => size + args.length
  | data .word args => size + args.length * 2
  | data .long args => size + args.length * 4
  | skip n => size + n.toNat
  | align n => roundUp size n.toNat
  | instruction _ args => if (operands args).all Operand.isRegister then size + 2 else size + 4
  | stop | global _ => size

theorem sizeAfter_data (size : Nat) (w : Width) (args : List String) :
    sizeAfter size (data w args) = size + args.length * w.size := by
  cases w with
  | char => exact congrArg _ (Nat.mul_one _).symm
  | word | long => rfl

theorem sizeAfter_instruction (size : Nat) (m : Mnemonic) (args : List String) :
    sizeAfter size (instruction m args) = size + Operand.instructionSize (operands args) := by
  rw [Operand.instructionSize_eq_ite, sizeAfter]
  split <;> rfl

/-- Whether a statement has so few elements that their bytes can be counted in 32 bits. -/
def Countable (s : Statement) : Prop :=
  ∀ w args, s = data w args → args.length * w.size < 2 ^ 32

/-- A statement that takes part in a section moves the place by its size. -/
theorem move?_eq_some_iff {s : Statement} (hc : s.Countable) (ho : s.occupies) {p q : Place} :
    (∃ t, s.motion = some t ∧ t.move? p = some q) ↔
      q.kind = p.kind ∧ q.location.toNat = s.sizeAfter p.location.toNat := by
  have hadvance : ∀ n, (∃ t, some (Step.advance n) = some t ∧ t.move? p = some q) ↔
      q.kind = p.kind ∧ q.location.toNat = p.location.toNat + n := by
    intro n
    rw [← Place.advance?_eq_some_iff]
    simp [Step.move?]
  cases s with
  | data w args =>
    refine (hadvance _).trans ?_
    rw [toNat_dataSize (hc w args rfl), sizeAfter_data]
  | skip n => exact hadvance _
  | instruction m args =>
    rw [sizeAfter_instruction]
    exact hadvance _
  | align n =>
    obtain ⟨k, a⟩ := q
    show (∃ t, some (Step.align n) = some t ∧ t.move? p = some ⟨k, a⟩) ↔
      k = p.kind ∧ a.toNat = roundUp p.location.toNat n.toNat
    rw [← alignUp_eq_some_iff_roundUp]
    simp only [Option.some.injEq, exists_eq_left', Step.move?, Place.align?, Option.map_eq_some_iff,
      Place.mk.injEq]
    constructor
    · rintro ⟨b, hb, rfl, rfl⟩
      exact ⟨rfl, hb⟩
    · rintro ⟨rfl, ha⟩
      exact ⟨a, ha, rfl, rfl⟩
  | stop | enter _ | global _ => cases ho

end Statement

/-- The address of the next byte; without an open section it is 0. -/
def Place.address (here : Option Place) : Nat := here.elim 0 fun p => p.location.toNat

theorem Place.address_le (here : Option Place) : address here ≤ 65535 := by
  cases here with
  | none => exact Nat.zero_le _
  | some p => exact Nat.le_of_lt_succ p.location.toNat_lt

theorem Step.next_of_move? {p q : Place} {t : Step} (h : t.move? p = some q)
    (ht : t.opens? = none) : t.next (some p) = some q := by
  cases t with
  | advance n =>
    have h : p.advance? n = some q := h
    simp [next, h]
  | align n =>
    have h : p.align? n = some q := h
    simp [next, h]
  | enter k => cases ht
  | _ => exact h

namespace Statement

def Fits (here : Option Place) (s : Statement) : Prop :=
  ∀ t, s.motion = some t → t.Fits here

theorem exists_motion_of_occupies {s : Statement} (ho : s.occupies) :
    ∃ t, s.motion = some t ∧ t.opens? = none := by
  cases s with
  | stop | enter _ | global _ => cases ho
  | _ => exact ⟨_, rfl, rfl⟩

theorem fits_of_occupies {s : Statement} (hc : s.Countable) (ho : s.occupies) (p : Place) :
    (s.Fits (some p) ↔ s.sizeAfter p.location.toNat ≤ 65535) ∧
      (s.Fits (some p) → Place.address (s.motion.elim (some p) (Step.next (some p))) =
        s.sizeAfter p.location.toNat) := by
  have hmove := fun q => move?_eq_some_iff hc ho (p := p) (q := q)
  obtain ⟨t, ht, hopens⟩ := exists_motion_of_occupies ho
  have hfits : s.Fits (some p) ↔ ∃ q, t.move? p = some q := by
    unfold Fits Step.Fits
    simp [ht, Option.isSome_iff_exists]
  simp only [ht, Option.some.injEq, exists_eq_left'] at hmove
  rw [hfits, ht]
  refine ⟨⟨?_, fun hle => ?_⟩, ?_⟩
  · rintro ⟨q, hq⟩
    rw [← ((hmove q).1 hq).2]
    exact Nat.le_of_lt_succ q.location.toNat_lt
  · refine ⟨⟨p.kind, UInt16.ofNat (s.sizeAfter p.location.toNat)⟩, (hmove _).2 ⟨rfl, ?_⟩⟩
    exact UInt16.toNat_ofNat_of_lt' (Nat.lt_succ_of_le hle)
  · rintro ⟨q, hq⟩
    show Place.address (t.next (some p)) = _
    rw [Step.next_of_move? hq hopens]
    exact ((hmove q).1 hq).2

/-- A statement that stands where it may has room exactly if its size has, and the next address is
its size. -/
theorem fits_iff_sizeAfter {s : Statement} (hc : s.Countable) {here : Option Place}
    (hp : s.occupies → here.isSome) :
    (s.Fits here ↔ s.sizeAfter (Place.address here) ≤ 65535) ∧
      (s.Fits here → Place.address (s.motion.elim here (Step.next here)) =
        s.sizeAfter (Place.address here)) := by
  by_cases ho : s.occupies
  · obtain ⟨p, rfl⟩ := Option.isSome_iff_exists.1 (hp ho)
    exact fits_of_occupies hc ho p
  · cases s with
    | enter k =>
      have hfits : (enter k).Fits here := fun t ht => Option.some.inj ht ▸ fun _ _ => rfl
      exact ⟨iff_of_true hfits (Nat.zero_le _), fun _ => rfl⟩
    | stop | global _ =>
      exact ⟨iff_of_true (fun t ht => nomatch ht) (Place.address_le here), fun _ => rfl⟩
    | _ => exact absurd rfl ho

end Statement

namespace Line

def sizeAfter (size : Nat) (line : Line) : Nat := line.statement.elim size (Statement.sizeAfter size)

def runningSize (lines : List Line) : Nat := lines.foldl sizeAfter 0

theorem fits_iff_sizeAfter {line : Line} (hr : line.Readable)
    (hc : ∀ s, line.statement = some s → s.Countable) {here : Option Place}
    (hp : line.NeedsPlace → here.isSome) :
    (line.Fits here ↔ line.sizeAfter (Place.address here) ≤ 65535) ∧
      (line.Fits here → Place.address (line.next here) =
        line.sizeAfter (Place.address here)) := by
  rw [next_eq hr]
  unfold Fits motion sizeAfter
  cases hs : line.statement with
  | none => exact ⟨iff_of_true (fun t ht => nomatch ht) (Place.address_le here), fun _ => rfl⟩
  | some s =>
    exact Statement.fits_iff_sizeAfter (hc s hs) fun ho => hp (.inr (by simp [occupies, hs, ho]))

theorem runningSize_concat (lines : List Line) (line : Line) :
    runningSize (lines ++ [line]) = line.sizeAfter (runningSize lines) := by
  unfold runningSize
  rw [List.foldl_append]
  rfl

/-- Lines that stand where they may have room exactly if no section grows past 65535 bytes, and then
the place after them is the running size. -/
theorem along_fits_iff_sizes {lines : List Line} (hr : ∀ line ∈ lines, line.Readable)
    (hc : ∀ line ∈ lines, ∀ s, line.statement = some s → s.Countable)
    (hp : Along (fun before line => line.NeedsPlace → before.filterMap opens? ≠ []) lines) :
    (Along (fun before line => line.Fits (before.foldl next none)) lines ↔
        Along (fun before line => line.sizeAfter (runningSize before) ≤ 65535) lines) ∧
      (Along (fun before line => line.Fits (before.foldl next none)) lines →
        Place.address (lines.foldl next none) = runningSize lines) := by
  -- both at once: sizes tell whether the last line fits only if the place is the running size
  induction lines using List.reverseRecOn with
  | nil => exact ⟨by simp [along_nil], fun _ => rfl⟩
  | append_singleton lines line ih =>
    rw [along_concat] at hp
    obtain ⟨hiff, hloc⟩ := ih (fun x hx => hr x (List.mem_append_left _ hx))
      (fun x hx => hc x (List.mem_append_left _ hx)) hp.1
    have hline : line ∈ lines ++ [line] := List.mem_append_right _ List.mem_cons_self
    have hplace : line.NeedsPlace → (lines.foldl next none).isSome :=
      fun hn => (isSome_foldl_next lines).2 (hp.2 hn)
    obtain ⟨hfits, hnext⟩ := fits_iff_sizeAfter (hr line hline) (hc line hline) hplace
    rw [along_concat, along_concat, List.foldl_append, runningSize_concat]
    refine ⟨?_, ?_⟩
    · rw [← hiff]
      refine and_congr_right fun hall => ?_
      rw [← hloc hall]
      exact hfits
    · rintro ⟨hall, hlast⟩
      rw [← hloc hall]
      exact hnext hlast

end Line

/-! ### Declarations -/

/-- Lines that declare what they use.  Labels and contents come after a section is opened, no section
and no label comes twice, all arguments can be read, every name that is used is a label or exported,
and no section grows past 65535 bytes. -/
structure WellDeclared (lines : List Line) : Prop where
  placed : Along (fun before line => line.labels ≠ [] ∨ line.occupies →
    ∃ earlier ∈ before, ∃ k, earlier.statement = some (.enter k)) lines
  sections : (lines.filterMap Line.opens?).Nodup
  labels : (lines.flatMap Line.labels).Nodup
  readable : ∀ line ∈ lines, ∀ s, line.statement = some s → s.Readable
  resolved : ∀ n ∈ lines.flatMap Line.uses,
    n ∈ lines.flatMap Line.labels ∨ n ∈ lines.flatMap Line.exports
  fits : ∀ before, before <+: lines → Line.runningSize before ≤ 65535

/-- A symbol table holds what lines declare: an entry for each section that is opened and for each
name, which is global if it is exported and defined if it is a label, in the section opened last and
at the size that the section has there. -/
structure Declares (lines : List Line) (table : SymbolTable) : Prop where
  entries : (table.toList.map Symbol.name).Perm
    ((lines.filterMap Line.opens?).map Section.name ++ (lines.flatMap Line.names).dedup)
  sections : ∀ k ∈ lines.filterMap Line.opens?, table.get? k.name = some (.ofSection k)
  names : ∀ n ∈ lines.flatMap Line.names, ∃ s, table.get? n = some s ∧
    (s.isDefined ↔ n ∈ lines.flatMap Line.labels) ∧
    (s.isGlobal ↔ n ∈ lines.flatMap Line.exports) ∧ (s.isDefined = false → s.offset = 0)
  labels : Along (fun before line => ∀ n ∈ line.labels, ∃ k s, table.get? n = some s ∧
    (before.filterMap Line.opens?).getLast? = some k ∧ s.home = some k ∧
    s.offset.toNat = Line.runningSize before) lines

namespace Line

variable {lines : List Line}

theorem filterMap_opens?_ne_nil_iff {before : List Line} :
    before.filterMap opens? ≠ [] ↔
      ∃ earlier ∈ before, ∃ k, earlier.statement = some (.enter k) := by
  rw [Ne, List.filterMap_eq_nil_iff]
  push Not
  refine exists_congr fun line => and_congr_right fun _ => ?_
  unfold opens?
  cases line.statement with
  | none => simp
  | some s => cases s <;> simp [Statement.opens?]

theorem along_sizeAfter_iff :
    Along (fun before line => line.sizeAfter (runningSize before) ≤ 65535) lines ↔
      ∀ before, before <+: lines → runningSize before ≤ 65535 := by
  constructor
  · rintro h before ⟨rest, rfl⟩
    induction before using List.reverseRecOn with
    | nil => exact Nat.zero_le _
    | append_singleton before line =>
      rw [runningSize_concat]
      exact h before line rest (by simp)
  · rintro h before line rest rfl
    rw [← runningSize_concat]
    exact h _ ⟨rest, by simp⟩

theorem accepted_iff_wellDeclared
    (hc : ∀ line ∈ lines, ∀ s, line.statement = some s → s.Countable) :
    (Accepted lines ∧ ∀ n ∈ lines.flatMap uses,
        n ∈ lines.flatMap labels ∨ n ∈ lines.flatMap exports) ↔ WellDeclared lines := by
  have hplaced : Along (fun before line => line.NeedsPlace → before.filterMap opens? ≠ []) lines ↔
      Along (fun before line => line.labels ≠ [] ∨ line.occupies →
        ∃ earlier ∈ before, ∃ k, earlier.statement = some (.enter k)) lines :=
    along_congr fun before line _ => imp_congr_right fun _ => filterMap_opens?_ne_nil_iff
  constructor
  · rintro ⟨h, hres⟩
    refine ⟨hplaced.1 h.placed, h.sections, h.labels, h.readable, hres, ?_⟩
    exact along_sizeAfter_iff.1 ((along_fits_iff_sizes h.readable hc h.placed).1.1 h.fits)
  · intro h
    have hp := hplaced.2 h.placed
    refine ⟨⟨h.readable, hp, h.sections, h.labels, ?_⟩, h.resolved⟩
    exact (along_fits_iff_sizes h.readable hc hp).1.2 (along_sizeAfter_iff.2 h.fits)

end Line

namespace Layout

variable {lines : List Line} {l : Layout}

theorem Takes.name_mem_iff (h : (start .empty).Takes (lines.flatMap Line.located) l)
    (hlabels : ∀ line ∈ lines, ∀ n ∈ line.labels, Identifier.isValid n) (n : String) :
    n ∈ l.symbols.toList.map Symbol.name ↔
      n ∈ (lines.filterMap Line.opens?).map Section.name ∨ n ∈ lines.flatMap Line.names := by
  have hw := wellFormed_start.takes h (isValid_of_mem_located hlabels)
  constructor
  · intro hn
    obtain ⟨s, hs, rfl⟩ := List.mem_map.1 hn
    rcases hw.named s hs with hv | ⟨k, rfl⟩
    · rcases h.entry hlabels hv with ⟨hnone, -⟩ | ⟨-, -, hmem, -⟩
      · rw [SymbolTable.get?_of_mem hs] at hnone
        cases hnone
      · exact .inr hmem
    · refine .inl (List.mem_map.2 ⟨k, ?_, rfl⟩)
      rw [← h.kinds_of_start]
      exact hw.home _ hs k rfl
  · rintro (hn | hn)
    · obtain ⟨k, hk, rfl⟩ := List.mem_map.1 hn
      rw [← h.kinds_of_start] at hk
      exact List.mem_map.2 ⟨_, SymbolTable.mem_of_get? (hw.get? k hk), rfl⟩
    · obtain ⟨x, hx, hxn⟩ := List.mem_filterMap.1
        ((Line.mem_names_flatMap (h.accepted hlabels).readable).2 hn)
      rw [← Line.map_snd_flatMap_located] at hx
      obtain ⟨y, hy, rfl⟩ := List.mem_map.1 hx
      obtain ⟨s, hs⟩ := SymbolTable.contains_iff.1 (h.contains hy hxn)
      exact List.mem_map.2 ⟨s, SymbolTable.mem_of_get? hs, SymbolTable.name_of_get? hs⟩

theorem Takes.declares (h : (start .empty).Takes (lines.flatMap Line.located) l)
    (hlabels : ∀ line ∈ lines, ∀ n ∈ line.labels, Identifier.isValid n)
    (hc : ∀ line ∈ lines, ∀ s, line.statement = some s → s.Countable) :
    Declares lines l.symbols := by
  have hacc := h.accepted hlabels
  have hvalid := isValid_of_mem_located hlabels
  have hw := wellFormed_start.takes h hvalid
  have hnames : ∀ n ∈ lines.flatMap Line.names, Identifier.isValid n := by
    intro n hn
    obtain ⟨x, hx, hxn⟩ := List.mem_filterMap.1 ((Line.mem_names_flatMap hacc.readable).2 hn)
    rw [← Line.map_snd_flatMap_located] at hx
    obtain ⟨y, hy, rfl⟩ := List.mem_map.1 hx
    exact hvalid y hy n hxn
  refine ⟨?_, ?_, ?_, ?_⟩
  · -- neither list has a name twice, so it is enough that they have the same names
    refine (List.perm_ext_iff_of_nodup l.symbols.nodup_names ?_).2 fun n => ?_
    · refine List.nodup_append.2 ⟨?_, List.nodup_dedup _, ?_⟩
      · exact hacc.sections.map fun _ _ => Section.name_inj.1
      · rintro _ hk n hn rfl
        obtain ⟨k, -, rfl⟩ := List.mem_map.1 hk
        have hv := hnames _ (List.mem_dedup.1 hn)
        rw [Section.isValid_name] at hv
        cases hv
    · rw [h.name_mem_iff hlabels, List.mem_append, List.mem_dedup]
  · intro k hk
    rw [← h.kinds_of_start] at hk
    exact hw.get? k hk
  · intro n hn
    rcases h.entry hlabels (hnames n hn) with ⟨-, hnot⟩ | ⟨s, hs, -, hdef, hglob, hoff⟩
    · exact absurd hn hnot
    · exact ⟨s, hs, hdef, hglob, hoff⟩
  · rintro before line rest rfl n hn
    obtain ⟨p, s, hp, hs, hhome, hoffset⟩ := h.label hn
    have hkind := Line.kind_foldl_next before none
    rw [hp, Option.map_none, Option.or_none] at hkind
    have hplaced := (along_append.1 hacc.placed).1
    have hfits := (along_append.1 hacc.fits).1
    have hsize := (Line.along_fits_iff_sizes
      (fun x hx => hacc.readable x (List.mem_append_left _ hx))
      (fun x hx => hc x (List.mem_append_left _ hx)) hplaced).2 hfits
    rw [hp] at hsize
    exact ⟨p.kind, s, hs, hkind.symm, hhome, hoffset ▸ hsize⟩

end Layout

/-- The first sweep accepts exactly the sources that declare what they use, and its table holds what
they declare.  A source is shorter than 2 ^ 31 bytes, so that the bytes of a statement can be
counted. -/
theorem exists_layout_iff_wellDeclared {source : String} (h : source.utf8ByteSize < 2 ^ 31) :
    ((∃ sections, ((Program.ofSource source).layout .empty).sections = .ok sections) ↔
      ∃ lines, Reads 0 (Text.rows source) lines ∧ WellDeclared lines) ∧
    ∀ lines sections, Reads 0 (Text.rows source) lines →
      ((Program.ofSource source).layout .empty).sections = .ok sections →
      Declares lines ((Program.ofSource source).layout .empty).symbols := by
  have hcountable : ∀ lines, Reads 0 (Text.rows source) lines →
      ∀ line ∈ lines, ∀ s, line.statement = some s → s.Countable := by
    rintro lines hread line hline s hs w args rfl
    have hprogram : Program.ofSource source = ⟨lines, none⟩ := Program.ofRows_eq_iff.2 hread
    have hargs : 2 * args.length < source.utf8ByteSize :=
      Program.two_mul_length_args (by rw [hprogram]; exact hline) hs
    have hwidth : w.size ≤ 4 := by cases w <;> decide
    have hmul := Nat.mul_le_mul_left args.length hwidth
    omega
  refine ⟨?_, ?_⟩
  · rw [Program.exists_layout_iff]
    exact exists_congr fun lines => and_congr_right fun hread =>
      Line.accepted_iff_wellDeclared (hcountable lines hread)
  · intro lines sections hread hs
    have hprogram : Program.ofSource source = ⟨lines, none⟩ := Program.ofRows_eq_iff.2 hread
    obtain ⟨l, ht, -, -, hsymbols⟩ := Program.layout_eq_ok_iff.1 hs
    obtain ⟨ht, -⟩ := Program.takes_steps_iff.1 ht
    rw [hprogram] at ht hsymbols ⊢
    rw [hsymbols]
    refine ht.declares (fun line hline n hn => ?_) (hcountable lines hread)
    obtain ⟨row, raw, -, hp⟩ := Program.exists_parse_of_mem_lines
      (show line ∈ (Program.ofRows (Text.rows source) 0).lines by
        rw [show Program.ofRows (Text.rows source) 0 = ⟨lines, none⟩ from hprogram]
        exact hline)
    exact Line.isValid_of_mem_labels hp hn

theorem exists_layout_iff_wellDeclared_export_and_align :
    ∃ lines sections,
      ((Program.ofSource ".data\nx: .word y, 1\n.align 8\n.text\nz: mov r1, $x\n.global y").layout
        .empty).sections = .ok sections ∧ WellDeclared lines ∧
      Declares lines ((Program.ofSource
        ".data\nx: .word y, 1\n.align 8\n.text\nz: mov r1, $x\n.global y").layout .empty).symbols := by
  obtain ⟨sections, h⟩ := Results.exists_of_isSome (x := ((Program.ofSource
    ".data\nx: .word y, 1\n.align 8\n.text\nz: mov r1, $x\n.global y").layout .empty).sections)
    (by decide +kernel)
  obtain ⟨hiff, hdeclares⟩ := @exists_layout_iff_wellDeclared
    ".data\nx: .word y, 1\n.align 8\n.text\nz: mov r1, $x\n.global y" (by decide +kernel)
  obtain ⟨lines, hread, hlines⟩ := hiff.1 ⟨sections, h⟩
  exact ⟨lines, sections, h, hlines, hdeclares lines sections hread h⟩

end SS16
