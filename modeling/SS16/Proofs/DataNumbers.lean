import SS16.Proofs.Emission.Elements
import SS16.Proofs.Emission.Sweep

/-!
# SS16.Proofs.DataNumbers — numbers as data

A number is laid down exactly if it fits its element as a signed or as an unsigned number, and its
bytes read back as the number.  Main statements: `LittleEndian.fits_iff`,
`LittleEndian.represents_of_encode?` and `Statement.data_numbers`.
-/

namespace SS16

/-! ### Integers in bytes -/

namespace LittleEndian

/-- The integer that bytes stand for as a two's-complement number. -/
def signed (bs : List UInt8) : Int := (value bs : Int).bmod (2 ^ (8 * bs.length))

/-- The integers of `size` bytes, signed ones and unsigned ones. -/
def InRange (size : Nat) (v : Int) : Prop :=
  -(2 ^ (8 * size - 1)) ≤ v ∧ v ≤ 2 ^ (8 * size) - 1

instance (size : Nat) (v : Int) : Decidable (InRange size v) :=
  inferInstanceAs (Decidable (_ ∧ _))

/-- Bytes from which an integer is read back. -/
structure Represents (size : Nat) (v : Int) (bs : List UInt8) : Prop where
  length : bs.length = size
  residue : (value bs : Int) = v % 2 ^ (8 * size)
  unsigned : 0 ≤ v → (value bs : Int) = v
  signed : v < 0 → signed bs = v

theorem capacity_eq (size : Nat) : capacity size = 2 ^ (8 * size) := by
  induction size with
  | zero => rfl
  | succ size ih => rw [capacity, ih, Nat.mul_succ, Nat.pow_add, Nat.mul_comm]

theorem two_pow_eq_double {R : Type} [Semiring R] {size : Nat} (hs : 0 < size) :
    (2 : R) ^ (8 * size) = 2 * 2 ^ (8 * size - 1) := by
  rw [← pow_succ']
  congr 1
  omega

theorem fits_iff {size : Nat} (hs : 0 < size) {v : Int} : fits size v ↔ InRange size v := by
  unfold fits InRange
  rw [Bool.and_eq_true, decide_eq_true_iff, decide_eq_true_iff, capacity_eq, two_pow_eq_double hs,
    Nat.mul_div_cancel_left _ Nat.two_pos, two_pow_eq_double hs]
  push_cast
  rw [Int.le_sub_one_iff]

theorem represents_of_encode? {size : Nat} (hs : 0 < size) {v : Int} {bs : List UInt8}
    (h : encode? size v = some bs) : Represents size v bs := by
  have hlength := length_of_encode? h
  unfold encode? at h
  split_ifs at h with hfits
  cases h
  obtain ⟨hlow, hhigh⟩ := (fits_iff hs).1 hfits
  have hpos : (0 : Int) < 2 ^ (8 * size) := by positivity
  have hresidue : (value (bytes size (v % capacity size).toNat) : Int) = v % 2 ^ (8 * size) := by
    have hcapacity : (capacity size : Int) = 2 ^ (8 * size) := by exact_mod_cast capacity_eq size
    rw [value_bytes, hcapacity, Int.natCast_emod, hcapacity,
      Int.toNat_of_nonneg (Int.emod_nonneg v hpos.ne'), Int.emod_emod]
  refine ⟨hlength, hresidue, fun hv => ?_, fun hv => ?_⟩
  · rw [hresidue, Int.emod_eq_of_lt hv (by omega)]
  · have hdouble : (2 : Int) ^ (8 * size) = 2 * 2 ^ (8 * size - 1) := two_pow_eq_double hs
    have hcast : ((2 ^ (8 * size) : Nat) : Int) = 2 ^ (8 * size) := by push_cast; rfl
    -- the balanced residue of a residue is that of the number, which is small enough to be its own
    unfold LittleEndian.signed
    rw [hlength, hresidue, ← hcast, Int.emod_bmod]
    refine Int.bmod_eq_of_le_mul_two ?_ ?_
    · rw [hcast]
      omega
    · rw [hcast]
      omega

end LittleEndian

/-! ### Elements -/

namespace Width

theorem size_pos (w : Width) : 0 < w.size := by
  cases w <;> decide

theorem element_of_inRange {w : Width} {v : Int} (h : LittleEndian.InRange w.size v) (arg : String) :
    ∃ bs, LittleEndian.Represents w.size v bs ∧ w.element arg v = .ok bs := by
  have hfits := (LittleEndian.fits_iff w.size_pos).2 h
  have hencode : LittleEndian.encode? w.size v = some _ := if_pos hfits
  exact ⟨_, LittleEndian.represents_of_encode? w.size_pos hencode, element_eq_ok.2 hencode⟩

theorem element_of_not_inRange {w : Width} {v : Int} (h : ¬ LittleEndian.InRange w.size v)
    (arg : String) : w.element arg v = .error (.literalOverflow arg w.size) := by
  have hencode : LittleEndian.encode? w.size v = none :=
    if_neg fun hfits => h ((LittleEndian.fits_iff w.size_pos).1 hfits)
  unfold element
  rw [hencode]
  rfl

theorem fragment_of_integer? {arg : String} {v : Int} (h : Numeral.integer? arg = some v)
    (w : Width) (symbols : SymbolTable) (loc : UInt16) :
    w.fragment symbols loc arg = ⟨[], w.element arg v⟩ := by
  unfold fragment
  rw [h]

theorem fragmentsFrom_of_inRange {w : Width} {args : List String} {vs : List Int}
    (hargs : List.Forall₂ (fun arg v => Numeral.integer? arg = some v) args vs)
    (hvs : ∀ v ∈ vs, LittleEndian.InRange w.size v) (symbols : SymbolTable) (loc : UInt16) (i : Nat) :
    ∃ es, List.Forall₂ (LittleEndian.Represents w.size) vs es ∧
      w.fragmentsFrom symbols loc args i = ⟨[], .ok es.flatten⟩ := by
  induction hargs generalizing i with
  | nil => exact ⟨[], .nil, rfl⟩
  | @cons arg v args vs hv _ ih =>
    rw [List.forall_mem_cons] at hvs
    obtain ⟨bs, hbs, helement⟩ := element_of_inRange hvs.1 arg
    obtain ⟨es, hes, hrest⟩ := ih hvs.2 (i + 1)
    refine ⟨bs :: es, .cons hbs hes, ?_⟩
    rw [fragmentsFrom_cons, fragment_of_integer? hv, helement, hrest]
    rfl

theorem fragmentsFrom_of_not_inRange {w : Width} {args : List String} {vs : List Int}
    (hargs : List.Forall₂ (fun arg v => Numeral.integer? arg = some v) args vs)
    (hvs : ¬ ∀ v ∈ vs, LittleEndian.InRange w.size v) (symbols : SymbolTable) (loc : UInt16)
    (i : Nat) :
    ∃ arg ∈ args, ∃ v, Numeral.integer? arg = some v ∧ ¬ LittleEndian.InRange w.size v ∧
      w.fragmentsFrom symbols loc args i = ⟨[], .error (.literalOverflow arg w.size)⟩ := by
  induction hargs generalizing i with
  | nil => exact absurd (List.forall_mem_nil _) hvs
  | @cons arg v args vs hv _ ih =>
    rw [fragmentsFrom_cons, fragment_of_integer? hv]
    by_cases hin : LittleEndian.InRange w.size v
    · rw [List.forall_mem_cons, not_and] at hvs
      obtain ⟨bs, -, helement⟩ := element_of_inRange hin arg
      obtain ⟨bad, hbad, u, hu, hout, hrest⟩ := ih (hvs hin) (i + 1)
      refine ⟨bad, List.mem_cons_of_mem arg hbad, u, hu, hout, ?_⟩
      rw [helement, hrest]
      rfl
    · refine ⟨arg, List.mem_cons_self, v, hv, hin, ?_⟩
      rw [element_of_not_inRange hin]
      rfl

end Width

/-! ### Lines -/

namespace Output

variable {symbols : SymbolTable} {p : Place} {s : Statement} {rs : List Relocation}

theorem emits_statement {bs : List UInt8} (ho : s.occupies)
    (hf : s.fragment symbols p = ⟨rs, .ok bs⟩) (hroom : p.location.toNat + bs.length ≤ 65535)
    (out : Output) (row : Nat) (labels : List String) :
    ∃ q, out.Emits symbols (some p) [⟨row, labels, some s⟩] (out.put row p rs bs) (some q) := by
  have hq : p.advance? bs.length = some _ := if_pos (Nat.lt_succ_of_le hroom)
  exact ⟨_, emits_cons.2 ⟨_, _, .put out p _ s rs bs rfl ho hf hq, emits_nil.2 ⟨rfl, rfl⟩⟩⟩

theorem emit_statement_of_error {f : Fault} (ho : s.occupies)
    (hf : s.fragment symbols p = ⟨rs, .error f⟩) (out : Output) (row : Nat)
    (labels : List String) :
    (out.emit symbols (some p) [⟨row, labels, some s⟩]).2 = .error (f.inRow row) := by
  have heffect : (Line.mk row labels (some s)).effect symbols (some p) = ⟨rs, .error f⟩ := by
    rw [Line.effect_of_occupies rfl ho]
    dsimp only
    rw [hf]
    rfl
  rw [emit, heffect]

end Output

def Width.sizes : List (Width × Nat) := [(char, 1), (word, 2), (long, 4)]

theorem Width.size_eq_of_mem {w : Width} {size : Nat} (h : (w, size) ∈ sizes) : w.size = size := by
  have hall : ∀ x ∈ sizes, x.1.size = x.2 := by decide
  exact hall _ h

/-- Data in a section with contents.  Behind elements that are accepted, an element that is a number
is accepted exactly if it is in the range of its width, as bytes that read back as the number.  Data
that are numbers are laid down one after another if they all are in range and there is room. -/
theorem Statement.data_numbers {w : Width} {size : Nat}
    (hw : (w, size) ∈ Width.sizes) (symbols : SymbolTable) {p : Place} (hp : p.kind.hasContents)
    (out : Output) (row : Nat) (labels : List String) :
    (∀ before arg after v rs xs, Numeral.integer? arg = some v →
      (data w before).fragment symbols p = ⟨rs, .ok xs⟩ →
        (LittleEndian.InRange size v → ∃ bs, LittleEndian.Represents size v bs ∧
          (data w (before ++ [arg])).fragment symbols p = ⟨rs, .ok (xs ++ bs)⟩) ∧
        (¬ LittleEndian.InRange size v →
          (data w (before ++ arg :: after)).fragment symbols p =
            ⟨rs, .error (.literalOverflow arg size)⟩ ∧
          (out.emit symbols (some p) [⟨row, labels, some (data w (before ++ arg :: after))⟩]).2 =
            .error ((Fault.literalOverflow arg size).inRow row))) ∧
    ∀ args vs, List.Forall₂ (fun arg v => Numeral.integer? arg = some v) args vs →
      ((∀ v ∈ vs, LittleEndian.InRange size v) →
        ∃ es, List.Forall₂ (LittleEndian.Represents size) vs es ∧
          es.flatten.length = size * args.length ∧
          (data w args).fragment symbols p = ⟨[], .ok es.flatten⟩ ∧
          (p.location.toNat + size * args.length ≤ 65535 → ∃ out' q,
            out.Emits symbols (some p) [⟨row, labels, some (data w args)⟩] out' (some q) ∧
              out'.code.get p.kind = out.code.get p.kind ++ es.flatten)) ∧
      ((¬ ∀ v ∈ vs, LittleEndian.InRange size v) →
        ∃ arg ∈ args, ∃ v, Numeral.integer? arg = some v ∧ ¬ LittleEndian.InRange size v ∧
          (out.emit symbols (some p) [⟨row, labels, some (data w args)⟩]).2 =
            .error ((Fault.literalOverflow arg size).inRow row)) := by
  obtain rfl : w.size = size := Width.size_eq_of_mem hw
  constructor
  · intro before arg after v rs xs hv hbefore
    rw [fragment_data hp] at hbefore
    constructor
    · intro hin
      obtain ⟨bs, hbs, helement⟩ := Width.element_of_inRange hin arg
      refine ⟨bs, hbs, ?_⟩
      rw [fragment_data hp, Width.fragmentsFrom_append, hbefore, Width.fragmentsFrom_cons,
        Width.fragment_of_integer? hv, helement]
      show Fragment.mk (rs ++ []) (.ok (xs ++ (bs ++ []))) = _
      rw [List.append_nil, List.append_nil]
    · intro hout
      have hfragment : (data w (before ++ arg :: after)).fragment symbols p =
          ⟨rs, .error (.literalOverflow arg w.size)⟩ := by
        rw [fragment_data hp, Width.fragmentsFrom_append, hbefore, Width.fragmentsFrom_cons,
          Width.fragment_of_integer? hv, Width.element_of_not_inRange hout]
        show Fragment.mk (rs ++ []) _ = _
        rw [List.append_nil]
        rfl
      exact ⟨hfragment, Output.emit_statement_of_error rfl hfragment out row labels⟩
  · intro args vs hargs
    constructor
    · intro hin
      obtain ⟨es, hes, hfragment⟩ :=
        Width.fragmentsFrom_of_inRange hargs hin symbols p.location 0
      have hlength : es.flatten.length = w.size * args.length := by
        rw [Width.length_of_fragmentsFrom hfragment, Nat.mul_comm]
      rw [← fragment_data hp] at hfragment
      refine ⟨es, hes, hlength, hfragment, fun hroom => ?_⟩
      rw [← hlength] at hroom
      obtain ⟨q, hemits⟩ := Output.emits_statement rfl hfragment hroom out row labels
      refine ⟨_, q, hemits, ?_⟩
      rw [Output.get_code_put, if_pos ⟨rfl, hp⟩]
    · intro hout
      obtain ⟨arg, harg, v, hv, hbad, hfragment⟩ :=
        Width.fragmentsFrom_of_not_inRange hargs hout symbols p.location 0
      rw [← fragment_data hp] at hfragment
      exact ⟨arg, harg, v, hv, hbad,
        Output.emit_statement_of_error rfl hfragment out row labels⟩

theorem Statement.data_numbers_limits :
    (∃ es, List.Forall₂ (LittleEndian.Represents 1) [-128, 255] es ∧ es.flatten.length = 2 ∧
      (data .char ["-128", "0xFF"]).fragment .empty ⟨.data, 0⟩ = ⟨[], .ok es.flatten⟩) ∧
    (∃ es, List.Forall₂ (LittleEndian.Represents 2) [-32768, 65535] es ∧ es.flatten.length = 4 ∧
      (data .word ["-32768", "0xFFFF"]).fragment .empty ⟨.data, 0⟩ = ⟨[], .ok es.flatten⟩) ∧
    (∃ es, List.Forall₂ (LittleEndian.Represents 4) [-2147483648, 4294967295] es ∧
      es.flatten.length = 8 ∧ (data .long ["-2147483648", "0xFFFFFFFF"]).fragment .empty ⟨.data, 0⟩ =
        ⟨[], .ok es.flatten⟩) ∧
    (data .char ["-128", "256", "x"]).fragment .empty ⟨.data, 0⟩ =
      ⟨[], .error (.literalOverflow "256" 1)⟩ := by
  have hfirst : (data .char ["-128"]).fragment .empty ⟨.data, 0⟩ = ⟨[], .ok [128]⟩ := by rfl
  have h1 : (Width.char, 1) ∈ Width.sizes := by decide
  have h2 : (Width.word, 2) ∈ Width.sizes := by decide
  have h4 : (Width.long, 4) ∈ Width.sizes := by decide
  obtain ⟨hone, hchar⟩ := data_numbers h1 .empty (p := ⟨.data, 0⟩) rfl .fresh 1 []
  obtain ⟨-, hword⟩ := data_numbers h2 .empty (p := ⟨.data, 0⟩) rfl .fresh 1 []
  obtain ⟨-, hlong⟩ := data_numbers h4 .empty (p := ⟨.data, 0⟩) rfl .fresh 1 []
  obtain ⟨xs, hxs, hxslen, hxsfrag, -⟩ := (hchar ["-128", "0xFF"] [-128, 255]
    (.cons (by decide +kernel) (.cons (by decide +kernel) .nil))).1 (by decide)
  obtain ⟨ys, hys, hyslen, hysfrag, -⟩ := (hword ["-32768", "0xFFFF"] [-32768, 65535]
    (.cons (by decide +kernel) (.cons (by decide +kernel) .nil))).1 (by decide)
  obtain ⟨zs, hzs, hzslen, hzsfrag, -⟩ := (hlong ["-2147483648", "0xFFFFFFFF"]
    [-2147483648, 4294967295] (.cons (by decide +kernel) (.cons (by decide +kernel) .nil))).1
    (by decide)
  exact ⟨⟨xs, hxs, hxslen, hxsfrag⟩, ⟨ys, hys, hyslen, hysfrag⟩, ⟨zs, hzs, hzslen, hzsfrag⟩,
    ((hone ["-128"] "256" ["x"] 256 [] [128] (by decide +kernel) hfirst).2 (by decide)).1⟩

end SS16
