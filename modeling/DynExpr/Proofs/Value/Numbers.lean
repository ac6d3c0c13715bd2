import DynExpr.Proofs.Double.Comparison
import DynExpr.Value.Equality

/-!
# Equal numbers

Integers are compared with one another exactly, and with doubles after rounding. So a double can
equal several integers that differ, and equality of numbers is not transitive: `2 ^ 53` as a double
equals both `2 ^ 53` and `2 ^ 53 + 1` as integers.

What remains is that equal numbers are rounded to equal doubles (`Number.toDouble_equal`), which is
all that hashing needs (`Value.hashNumber_eq`). And this is all that can go wrong: numbers are equal
through a third one unless they are different integers that are both rounded to it
(`Number.Clash`, `Number.equal_trans`).

Two integers clash only beyond `2 ^ 53`, where not all integers are doubles. So they do not if both
are `Number.Exact` (`Number.apart_of_exact`), or if the number between them is no double of
magnitude `2 ^ 53` or more, `Number.Small` (`Number.apart_of_small`).
-/

namespace DynExpr

namespace Number

/-- The number is a double, or an integer of magnitude `2 ^ 53` at most. -/
def Exact (number : Number) : Prop := ∀ n, number.integer? = some n → n.natAbs ≤ 2 ^ 53

/-- The number is an integer, or a double of magnitude below `2 ^ 53`. -/
def Small (number : Number) : Prop :=
  number.integer? = none → number.toDouble.magnitudeBits < 0x4340000000000000

/-- Two integers clash at a double: they are different, and both are rounded to it. -/
def Clash (left middle right : Number) : Prop :=
  ∃ m n, left.integer? = some m ∧ right.integer? = some n ∧ m ≠ n ∧
    middle = .double (Double.ofInt m) ∧ middle = .double (Double.ofInt n)

/-- No integers of the first and of the last kind clash at a double of the kind between them. -/
def Apart (A B C : Number → Prop) : Prop := ∀ l m n, A l → B m → C n → ¬ Clash l m n

variable {a b c : Number} {m n : Int}

/-- An integer is rounded to the nearest double. -/
theorem toDouble_of_integer? (h : a.integer? = some n) : a.toDouble = Double.ofInt n := by
  cases a with
  | double _ => exact nomatch h
  | int64 _ | uint64 _ => rw [← Option.some.inj h]; rfl

/-- Integers are compared exactly, whatever they are stored in. -/
theorem equal_integers (ha : a.integer? = some m) (hb : b.integer? = some n) :
    a.equal b ↔ m = n := by
  unfold equal
  rw [ha, hb]
  exact beq_iff_eq

/-- If one of two numbers is a double they are compared as doubles. -/
theorem equal_doubles (h : a.integer? = none ∨ b.integer? = none) :
    a.equal b = a.toDouble.equal b.toDouble := by
  unfold equal
  split
  · next ha hb =>
    rw [ha, hb] at h
    simp at h
  · rfl

/-- Two numbers are compared as integers, or as doubles. -/
theorem integers_or_doubles (a b : Number) :
    (∃ m n, a.integer? = some m ∧ b.integer? = some n) ∨
      (a.integer? = none ∨ b.integer? = none) := by
  cases a.integer? <;> cases b.integer? <;> simp

/-- Equality of numbers is symmetric. -/
theorem equal_comm (a b : Number) : a.equal b = b.equal a := by
  rcases integers_or_doubles a b with ⟨m, n, ha, hb⟩ | h
  · rw [Bool.eq_iff_iff, equal_integers ha hb, equal_integers hb ha]
    exact eq_comm
  · rw [equal_doubles h, equal_doubles h.symm]
    exact Double.equal_comm _ _

/-- A number equals itself unless it is not one. -/
theorem equal_self (h : a.toDouble.isNaN = false) : a.equal a := by
  rcases integers_or_doubles a a with ⟨m, n, ha, hb⟩ | hdouble
  · exact (equal_integers ha ha).mpr rfl
  · rw [equal_doubles hdouble]
    exact Double.equal_self h

/-- Equal numbers are rounded to equal doubles. -/
theorem toDouble_equal (h : a.equal b) : a.toDouble.equal b.toDouble := by
  rcases integers_or_doubles a b with ⟨m, n, ha, hb⟩ | hdouble
  · obtain rfl := (equal_integers ha hb).mp h
    rw [toDouble_of_integer? ha, toDouble_of_integer? hb]
    exact Double.equal_self (Double.isNaN_ofInt m)
  · rwa [equal_doubles hdouble] at h

/-- **Numbers are equal through a third one**, unless they are integers that clash there. -/
theorem equal_trans (h : ¬ Clash a b c) (hab : a.equal b) (hbc : b.equal c) : a.equal c := by
  rcases integers_or_doubles a c with ⟨m, n, ha, hc⟩ | hdouble
  · rw [equal_integers ha hc]
    -- between integers of 64 bits everything is exact, and only a double may be in the way
    cases b with
    | int64 _ => exact ((equal_integers ha rfl).mp hab).trans ((equal_integers rfl hc).mp hbc)
    | uint64 _ => exact ((equal_integers ha rfl).mp hab).trans ((equal_integers rfl hc).mp hbc)
    | double d =>
      rw [equal_doubles (.inr rfl), toDouble_of_integer? ha] at hab
      rw [equal_comm, equal_doubles (.inr rfl), toDouble_of_integer? hc] at hbc
      by_cases hzero : d.isZero
      · -- a zero has two doubles, but only the integer zero is rounded to one of them
        exact (Double.eq_zero_of_equal_isZero hzero hab).trans
          (Double.eq_zero_of_equal_isZero hzero hbc).symm
      · -- both integers are rounded to this double, where they would clash if they were different
        by_cases hne : m = n
        · exact hne
        · exact absurd ⟨m, n, ha, hc, hne,
            congrArg Number.double (Double.ofInt_eq_of_equal hzero hab).symm,
            congrArg Number.double (Double.ofInt_eq_of_equal hzero hbc).symm⟩ h
  · -- if an outer number is a double, all three may be taken as doubles
    rw [equal_doubles hdouble]
    exact Double.equal_trans (toDouble_equal hab) (toDouble_equal hbc)

/-! ### Numbers that do not clash -/

variable {A B C : Number → Prop}

/-- A clash has no direction. -/
theorem Clash.symm (h : Clash a b c) : Clash c b a := by
  obtain ⟨m, n, ha, hc, hne, hm, hn⟩ := h
  exact ⟨n, m, hc, ha, hne.symm, hn, hm⟩

/-- Kinds that are apart are so the other way round. -/
theorem Apart.symm (h : Apart A B C) : Apart C B A :=
  fun _ _ _ hl hm hn hclash => h _ _ _ hn hm hl hclash.symm

/-- Narrower kinds stay apart. -/
theorem Apart.mono {A' B' C' : Number → Prop} (h : Apart A B C) (hA : ∀ l, A' l → A l)
    (hB : ∀ m, B' m → B m) (hC : ∀ n, C' n → C n) : Apart A' B' C' :=
  fun l m n hl hm hn => h l m n (hA l hl) (hB m hm) (hC n hn)

/-- Integers up to `2 ^ 53` do not clash: rounding does not change them. -/
theorem not_clash_of_exact (ha : a.Exact) (hc : c.Exact) : ¬ Clash a b c := by
  rintro ⟨m, n, hm, hn, hne, hleft, hright⟩
  have hdouble : Double.ofInt m = Double.ofInt n := Number.double.inj (hleft.symm.trans hright)
  -- the doubles of such integers are equal only for equal integers
  apply hne
  rw [← Double.equal_ofInt_iff (ha m hm) (hc n hn), ← hdouble]
  exact Double.equal_self (Double.isNaN_ofInt m)

/-- Kinds of integers up to `2 ^ 53` at the ends are apart, whatever is between them. -/
theorem apart_of_exact (hA : ∀ l, A l → l.Exact) (hC : ∀ n, C n → n.Exact) : Apart A B C :=
  fun l _ n hl _ hn => not_clash_of_exact (hA l hl) (hC n hn)

/-- Doubles and integers up to `2 ^ 53` are apart. -/
theorem apart_exact : Apart Exact Exact Exact := apart_of_exact (fun _ => id) fun _ => id

/-- An integer that is rounded to a double of magnitude below `2 ^ 53` is of such a magnitude
itself. -/
theorem exact_of_small (ha : a.integer? = some n) (hb : b = .double (Double.ofInt n))
    (hsmall : b.Small) : a.Exact := by
  intro k hk
  obtain rfl : n = k := Option.some.inj (ha.symm.trans hk)
  subst hb
  have hupper : (Double.ofInt n).magnitudeBits < 0x4340000000000000 := hsmall rfl
  rcases Nat.lt_or_ge n.natAbs (2 ^ 53) with hlt | hge
  · exact Nat.le_of_lt hlt
  · -- from `2 ^ 53` on, no integer is rounded to a smaller double
    have hlower := Double.le_magnitudeBits_ofInt hge
    omega

/-- Kinds are apart if no double between them has a magnitude of `2 ^ 53` or more. -/
theorem apart_of_small (hB : ∀ m, B m → m.Small) : Apart A B C := by
  rintro l middle r _ hmiddle _ ⟨m, n, hm, hn, hne, hleft, hright⟩
  have hsmall := hB middle hmiddle
  exact not_clash_of_exact (exact_of_small hm hleft hsmall) (exact_of_small hn hright hsmall)
    ⟨m, n, hm, hn, hne, hleft, hright⟩

end Number

/-- Equal numbers have equal hashes: the hash is that of the double, and one zero stands for
both. -/
theorem Value.hashNumber_eq {ω : Type} [Host ω] {a b : Number} (h : a.equal b) :
    hashNumber ω a = hashNumber ω b := by
  unfold hashNumber
  -- equal doubles are the same or both zeros
  rcases Double.eq_or_isZero_of_equal (Number.toDouble_equal h) with heq | ⟨ha, hb⟩
  · rw [heq]
  · dsimp only
    rw [if_pos ha, if_pos hb]

end DynExpr
