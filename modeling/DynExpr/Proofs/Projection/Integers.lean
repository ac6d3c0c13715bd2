import DynExpr.Proofs.Double.Truncation
import DynExpr.Proofs.Expression.Constants
import DynExpr.Proofs.Expression.Restored
import Mathlib.Data.Rat.Floor

/-!
# Integers for the host

A number is given to the host as an integer by cutting its exact value toward zero, if the integer
type holds the result, and otherwise there is an error: nothing wraps around (`project_integer`).

The range of a type is tested in three ways. An integer is compared with the limits as it is, and a
double is truncated first and then compared with the limits as doubles. Since truncation is exact,
and the limits are zero or powers of two, this is the same as comparing integers
(`castDouble?_eq`), also where not every integer is a double.

`integers_exact` adds the way there: an integer constant may travel as a double or as an entry of
a table, and what an expression that reads it yields has the value of the constant.
-/

namespace DynExpr

variable {σ ω : Type}

/-! ### Exact values -/

/-- The exact value of a double, if it is finite. -/
def Double.value? (d : Double) : Option ℚ :=
  if d.isFinite then some (d.units / (Double.unitsPerOne : ℕ)) else none

/-- The exact value of a number, if it is finite. -/
def Number.value? : Number → Option ℚ
  | .double x => x.value?
  | .int64 n => some n.toInt
  | .uint64 n => some n.toNat

/-- The integer next to a rational number, toward zero. -/
def towardZero (x : ℚ) : ℤ := if 0 ≤ x then ⌊x⌋ else ⌈x⌉

/-- An integer is the one next to itself. -/
@[simp] theorem towardZero_intCast (n : ℤ) : towardZero n = n := by
  unfold towardZero
  split
  · exact Int.floor_intCast n
  · exact Int.ceil_intCast n

/-- A natural number is the integer next to itself. -/
@[simp] theorem towardZero_natCast (n : ℕ) : towardZero n = n := by
  rw [← Int.cast_natCast, towardZero_intCast]

/-- The integer next to a fraction is the quotient of the division that cuts. -/
theorem towardZero_div (n : ℤ) {d : ℕ} (hd : 0 < d) : towardZero (n / d) = n.tdiv d := by
  have hpos : (0 : ℚ) < d := Nat.cast_pos.mpr hd
  unfold towardZero
  split
  · next hsign =>
    have hn : 0 ≤ n := by
      have := (le_div_iff₀ hpos).mp hsign
      rw [zero_mul] at this
      exact_mod_cast this
    -- not below zero both cut the fraction off
    rw [Rat.floor_intCast_div_natCast, Int.tdiv_eq_ediv_of_nonneg hn]
  · next hsign =>
    have hn : n ≤ 0 := by
      by_contra hn
      exact hsign (div_nonneg (by exact_mod_cast (not_le.mp hn).le) hpos.le)
    -- below zero rounding up is dividing the opposite number
    rw [Rat.ceil_intCast_div_natCast, ← Int.tdiv_eq_ediv_of_nonneg (by omega), Int.neg_tdiv,
      neg_neg]

/-! ### Integer types -/

namespace IntegerType

variable {type : IntegerType} {n : Int}

/-- The limits of a type are doubles. -/
theorem hasUnits_ofInt_limits (hwidth : type.width ≤ 64) :
    (Double.ofInt type.least).HasUnits (type.least * Double.unitsPerOne) ∧
      (Double.ofInt type.limit).HasUnits (type.limit * Double.unitsPerOne) := by
  constructor
  · refine Double.IsExact.hasUnits_ofInt ?_
    -- the least value is the negative of a power of two, or zero
    unfold least
    split
    · rw [Int.natAbs_neg, Int.natAbs_natCast]
      exact Double.isExact_two_pow (by omega)
    · rw [Int.natAbs_zero, Nat.zero_mul]
      exact Double.isExact_zero
  · refine Double.IsExact.hasUnits_ofInt ?_
    unfold limit
    rw [Int.natAbs_natCast]
    exact Double.isExact_two_pow (by split <;> omega)

end IntegerType

/-! ### The strict cast -/

namespace Target

variable {type : IntegerType} (hwidth : type.width ≤ 64)

include hwidth

/-- **The comparison of doubles is one of integers.** -/
theorem castDouble?_eq (x : Double) :
    castDouble? type x = (x.value?.map towardZero).filter type.holds := by
  unfold castDouble? Double.value?
  dsimp only
  cases hfinite : x.isFinite with
  | false =>
    -- what is not finite is not cut, and has no value
    rw [Double.isFinite_truncate_of_not hfinite]
    rfl
  | true =>
    have htruncated := Double.hasUnits_truncate hfinite
    obtain ⟨hleast, hlimit⟩ := IntegerType.hasUnits_ofInt_limits hwidth
    have hpos : 0 < Double.unitsPerOne := Nat.pos_of_ne_zero Double.unitsPerOne_ne_zero
    rw [if_pos rfl, Option.map_some, towardZero_div _ hpos, Option.filter_some,
      htruncated.isFinite, htruncated.integerPart?_eq]
    -- what is left are the comparisons with the two limits
    have hbelow := htruncated.less_iff hleast
    have habove := hlimit.lessOrEqual_iff htruncated
    -- the cut double enters only through its integer
    generalize x.units.tdiv Double.unitsPerOne = n at hbelow habove ⊢
    by_cases hholds : type.holds n = true
    · obtain ⟨hlow, hhigh⟩ := Bool.and_eq_true_iff.mp hholds
      have hlow := of_decide_eq_true hlow
      have hhigh := of_decide_eq_true hhigh
      rw [if_pos hholds, if_neg]
      simp only [Bool.not_true, Bool.false_or, Bool.or_eq_true, hbelow, habove]
      omega
    · have hout : n < type.least ∨ type.limit ≤ n := by
        unfold IntegerType.holds at hholds
        rw [Bool.and_eq_true, decide_eq_true_eq, decide_eq_true_eq] at hholds
        omega
      rw [if_neg hholds, if_pos]
      simp only [Bool.not_true, Bool.false_or, Bool.or_eq_true, hbelow, habove]
      exact hout

/-- A number of any kind is cut to an integer and kept if the type holds it. -/
theorem castInteger?_eq (number : Number) :
    castInteger? type number = (number.value?.map towardZero).filter type.holds := by
  cases number with
  | double x => exact castDouble?_eq hwidth x
  | int64 n => rw [Number.value?, Option.map_some, towardZero_intCast, Option.filter_some]; rfl
  | uint64 n => rw [Number.value?, Option.map_some, towardZero_natCast, Option.filter_some]; rfl

/-- **A number is given as the integer that it is cut to**, or there is an error. -/
theorem project_integer [Host ω] {v : Value ω} {number : Number} (h : v.number? = some number) :
    (integer type).project v =
      match (number.value?.map towardZero).filter type.holds with
      | some n => .ok (.integer n)
      | none => .error (.error (.resultTypeMismatch type.name v)) := by
  have hcast : (integer type).cast? v =
      ((number.value?.map towardZero).filter type.holds).map .integer := by
    rw [cast?, h, Option.bind_some, castInteger?_eq hwidth]
  have hconvert : (integer type).convert? v = none := by
    cases v <;> first | rfl | cases h
  unfold project
  rw [hcast, hconvert]
  cases (number.value?.map towardZero).filter type.holds <;> rfl

end Target

/-! ### Integers that travel -/

/-- A double that is an integer has this value. -/
theorem Double.HasUnits.value?_eq {d : Double} {n : Int} (h : d.HasUnits (n * unitsPerOne)) :
    d.value? = some (n : ℚ) := by
  have hunit : ((unitsPerOne : ℕ) : ℚ) ≠ 0 := Nat.cast_ne_zero.mpr unitsPerOne_ne_zero
  rw [value?, if_pos h.isFinite, h.units, Int.cast_mul, Int.cast_natCast,
    mul_div_cancel_right₀ _ hunit]

/-- A number that is stored as an integer has this value. -/
theorem Number.value?_of_integer? {number : Number} {n : Int} (h : number.integer? = some n) :
    number.value? = some (n : ℚ) := by
  cases number with
  | double x => cases h
  | int64 m =>
    obtain rfl := Option.some.inj h
    rfl
  | uint64 m =>
    obtain rfl := Option.some.inj h
    rw [value?, Int.cast_natCast]

/-- The integer that travels as a double is the one that is stored. -/
theorem Value.integer?_of_exactInteger? {v : Value ω} {number : Number} {n : Int}
    (hnumber : v.number? = some number) (h : v.exactInteger? = some n) :
    number.integer? = some n := by
  cases v with
  | int64 m | uint64 m =>
    obtain rfl := Option.some.inj hnumber
    obtain ⟨-, h⟩ := Option.ite_none_right_eq_some.mp h
    exact h
  | _ => cases h

/-- An integer keeps its value, in whatever form it arrives. -/
theorem Value.value?_norm {v : Value ω} {number : Number} {n : Int}
    (hnumber : v.number? = some number) (hinteger : number.integer? = some n) :
    ∃ received, v.norm.number? = some received ∧ received.value? = some (n : ℚ) := by
  cases hexact : v.exactInteger? with
  | some m =>
    -- a small integer travels as a double
    obtain ⟨hfinite, hunits, -⟩ := Double.ofInt_exact (natAbs_le_of_exactInteger? hexact)
    rw [norm_of_exactInteger? hexact]
    rw [integer?_of_exactInteger? hnumber hexact] at hinteger
    obtain rfl := Option.some.inj hinteger
    exact ⟨_, rfl, Double.HasUnits.value?_eq ⟨hfinite, hunits⟩⟩
  | none =>
    have hnil : ¬ v.isNil := by
      cases v <;> first | exact Bool.false_ne_true | cases hnumber
    rw [norm_eq_self hnil hexact]
    exact ⟨number, hnumber, Number.value?_of_integer? hinteger⟩

section Exact

variable [Host ω]

/-- **Integers are exact.** A number is given to the host as an integer type if it is finite and the
type holds its integer part, and then as this integer; otherwise there is an error that names the
type and the number. An expression that reads an integer constant yields this very integer, for
every type that holds it, even if it is no double. -/
theorem integers_exact (type : IntegerType) (hwidth : type.width ≤ 64) :
    (∀ (v : Value ω) (number : Number), v.number? = some number →
      (∃ x, number.value? = some x ∧ type.holds (towardZero x) ∧
        (Target.integer type).project v = .ok (.integer (towardZero x))) ∨
      ((∀ x, number.value? = some x → ¬ type.holds (towardZero x)) ∧
        (Target.integer type).project v =
          .error (.error (.resultTypeMismatch type.name v)))) ∧
    (∀ (options : Options) (constants : Constants ω) (table : SymbolTable σ ω) (host : σ)
      (name : Text) (v : Value ω) (number : Number) (n : Int), constants name = some v →
      v.number? = some number → number.integer? = some n → type.holds n →
      ∃ expression machine, compile options (.ofTables options constants table)
          (.apply (.var name) []) host = (expression, machine) ∧
        ∀ current : Machine σ ω, current.table = machine.table →
          (expression.evaluate (.integer type) current).1 = .ok (.integer n)) := by
  constructor
  · intro v number hnumber
    have hproject := Target.project_integer hwidth hnumber
    cases hpart : (number.value?.map towardZero).filter type.holds with
    | some n =>
      obtain ⟨hvalue, hholds⟩ := Option.filter_eq_some_iff.mp hpart
      obtain ⟨x, hx, rfl⟩ := Option.map_eq_some_iff.mp hvalue
      rw [hpart] at hproject
      exact .inl ⟨x, hx, hholds, hproject⟩
    | none =>
      rw [hpart] at hproject
      refine .inr ⟨fun x hx hholds => ?_, hproject⟩
      rw [hx, Option.map_some, Option.filter_some, if_pos hholds] at hpart
      cases hpart
  · intro options constants table host name v number n hconstant hnumber hinteger hholds
    -- an integer is no double, so it is not taken for a tag
    have htag : v.TagFree := by
      rintro x rfl
      obtain rfl := Option.some.inj hnumber
      cases hinteger
    obtain ⟨received, hreceived, hvalue⟩ := Value.value?_norm hnumber hinteger
    obtain ⟨expression, machine, hcompile, hrun⟩ :=
      compile_constant hconstant htag options table host
    refine ⟨expression, machine, hcompile, fun current htable => ?_⟩
    have hproject := Target.project_integer hwidth hreceived
    rw [hvalue, Option.map_some, towardZero_intCast, Option.filter_some, if_pos hholds] at hproject
    unfold Expression.evaluate
    dsimp only
    rw [hrun current htable]
    exact hproject

/-- As a signed integer of 64 bits, `2 ^ 63` is an error, and the constant `2 ^ 53 + 1`, which is no
double, is read as it is. -/
theorem integers_exact_signed :
    (⟨true, 64⟩ : IntegerType).width ≤ 64 ∧
      (Target.integer ⟨true, 64⟩).project (.uint64 9223372036854775808 : Value Empty) =
        .error (.error (.resultTypeMismatch (utf8 "Int64") (.uint64 9223372036854775808))) ∧
      ∃ expression machine, compile .standard (.ofTables .standard
          (fun _ => some (.int64 9007199254740993)) fun _ => none : HostLookup Unit Empty)
          (.apply (.var (utf8 "x")) []) () = (expression, machine) ∧
        (expression.evaluate (.integer ⟨true, 64⟩) machine).1 =
          .ok (.integer 9007199254740993) := by
  have hwidth : (⟨true, 64⟩ : IntegerType).width ≤ 64 := Nat.le_refl _
  obtain ⟨hproject, hconstant⟩ := integers_exact (σ := Unit) (ω := Empty) ⟨true, 64⟩ hwidth
  refine ⟨hwidth, ?_, ?_⟩
  · rcases hproject (.uint64 9223372036854775808) _ rfl with ⟨x, hx, hholds, -⟩ | ⟨-, herror⟩
    · obtain rfl := Option.some.inj hx
      rw [towardZero_natCast] at hholds
      exact absurd hholds (by decide)
    · exact herror
  · obtain ⟨expression, machine, hcompile, hevaluate⟩ := hconstant .standard
      (fun _ => some (.int64 9007199254740993)) (fun _ => none) () (utf8 "x") _ _ 9007199254740993
      rfl rfl (by decide) (by decide)
    exact ⟨expression, machine, hcompile, hevaluate machine rfl⟩

end Exact

end DynExpr
