import DynExpr.CommandLine
import DynExpr.Proofs.Channel.Lifetime
import DynExpr.Proofs.Node.Shape

/-!
# Arithmetic on numbers that travel

An evaluator of arithmetic receives the numbers of its operands and passes the double of its result
on as it is. So the result of numbers is a number only if its bits are no tag.

Which doubles are numbers depends on the table. No entry of it is a double
(`ValueTable.holdsBoxed_after`), so a double is received as a double only if no tag is found in it
(`ValueTable.IsNumber.tagged?_eq_none`), and then it is received as itself.

* The prefix operator `+`, and the extremes, yield one of their operands. The magnitude has its sign
  bit cleared, and a tag has it set. So these never yield anything but a number.
* The prefix operator `-` flips the sign bit, of a NaN as well. Of a positive NaN with the payload
  of a tag it makes the tag (`ValueTable.isNumber_neg_iff`).

`arithmetic_isNumber` puts this together, and `arithmetic_neg_nil` is a number whose negative is
nil.
-/

namespace DynExpr

variable {σ ω : Type}

/-! ### Sign bits -/

namespace Double

/-- The payload of a positive quiet NaN is what its bits exceed these by. -/
def positiveQuietBits : Nat := 0x7FF8000000000000

theorem toNat_neg (d : Double) : d.neg.bits.toNat =
    if d.bits.toNat < 2 ^ 63 then d.bits.toNat + 2 ^ 63 else d.bits.toNat - 2 ^ 63 := by
  have hlt := d.bits.toNat_lt
  have hxor : d.neg.bits.toNat = d.bits.toNat ^^^ 2 ^ 63 := UInt64.toNat_xor _ _
  -- a number is given by its highest bit and by the others
  have hhigh : (d.bits.toNat ^^^ 2 ^ 63) / 2 ^ 63 = d.bits.toNat / 2 ^ 63 ^^^ 1 := by
    rw [Nat.xor_div_two_pow, Nat.div_self (Nat.two_pow_pos 63)]
  have hlow : (d.bits.toNat ^^^ 2 ^ 63) % 2 ^ 63 = d.bits.toNat % 2 ^ 63 := by
    rw [Nat.xor_mod_two_pow, Nat.mod_self, Nat.xor_zero]
  rw [hxor]
  split
  · next hpositive =>
    rw [Nat.div_eq_of_lt hpositive, Nat.zero_xor] at hhigh
    omega
  · next hnegative =>
    rw [show d.bits.toNat / 2 ^ 63 = 1 by omega, Nat.xor_self] at hhigh
    omega

theorem toNat_abs (d : Double) : d.abs.bits.toNat = d.bits.toNat % 2 ^ 63 := by
  have hand : d.abs.bits.toNat = d.bits.toNat &&& (2 ^ 63 - 1) := UInt64.toNat_and _ _
  rw [hand, Nat.and_two_pow_sub_one_eq_mod]

end Double

/-! ### Numbers of a table -/

namespace ValueTable

/-- The double is received as a double, be it a number or a NaN. -/
def IsNumber (table : ValueTable ω) (d : Double) : Prop := ∃ x, table.load d = .double x

/-- All entries are boxed values. -/
def HoldsBoxed (table : ValueTable ω) : Prop := ∀ v ∈ table.entries.toList, v.isBoxed

section Numbers

variable {table : ValueTable ω} {d : Double}

/-- A value that is not boxed leaves the table as it is. -/
theorem store_snd_of_not_isBoxed {v : Value ω} (h : v.isBoxed = false) :
    (table.store v).2 = table := by
  rcases v.channel_cases with hnil | ⟨n, hint⟩ | ⟨flag, rfl⟩ | ⟨x, rfl⟩ | hboxed
  · rw [store_of_isNil table hnil]
  · rw [store_of_exactInteger? table hint]
  · rfl
  · rfl
  · exact absurd hboxed (by simp [h])

theorem HoldsBoxed.step (h : table.HoldsBoxed) (step : TableStep ω) :
    (table.step step).HoldsBoxed := by
  -- a truncation leaves some of the entries, and only boxed values are added
  cases step with
  | truncate length =>
    have hentries : (table.truncate length).entries.toList = table.entries.toList.take length := by
      simp [truncate]
    intro v hmem
    rw [ValueTable.step, hentries] at hmem
    exact h v (List.mem_of_mem_take hmem)
  | store value =>
    cases hboxed : value.isBoxed with
    | false =>
      rw [ValueTable.step, store_snd_of_not_isBoxed hboxed]
      exact h
    | true =>
      rw [ValueTable.step, store_of_isBoxed table hboxed]
      have hentries : (table.add value).2.entries.toList = table.entries.toList ++ [value] := by
        simp [add]
      intro v hmem
      rw [hentries, List.mem_append, List.mem_singleton] at hmem
      rcases hmem with hmem | rfl
      · exact h v hmem
      · exact hboxed

/-- **No entry is a double**, whatever was done to a table. -/
theorem holdsBoxed_after (history : List (TableStep ω)) : (empty.after history).HoldsBoxed := by
  have hrun (table : ValueTable ω) (h : table.HoldsBoxed) : (table.after history).HoldsBoxed := by
    induction history generalizing table with
    | nil => exact h
    | cons step rest ih => exact ih _ (h.step step)
  exact hrun empty fun _ hmem => absurd hmem List.not_mem_nil

theorem load_of_tagged?_eq_none (h : table.tagged? d = none) : table.load d = .double d := by
  rw [load, h, Option.getD_none]

theorem isNumber_of_tagged?_eq_none (h : table.tagged? d = none) : table.IsNumber d :=
  ⟨d, load_of_tagged?_eq_none h⟩

/-- No tag is found in a number: none stands for a double. -/
theorem IsNumber.tagged?_eq_none (hboxed : table.HoldsBoxed) (h : table.IsNumber d) :
    table.tagged? d = none := by
  obtain ⟨x, hx⟩ := h
  cases htagged : table.tagged? d with
  | none => rfl
  | some v =>
    rw [load, htagged, Option.getD_some] at hx
    subst hx
    unfold tagged? at htagged
    -- the tags of truth values and of nil stand for no double, and neither does an entry
    repeat' split at htagged
    · cases htagged
    · cases htagged
    · cases htagged
    · have hentry := hboxed _ (Array.mem_toList_iff.mpr (Array.mem_of_getElem? htagged))
      cases hentry
    · cases htagged

/-- Below the bits of tags there are only numbers. -/
theorem tagged?_of_lt_mask (h : d.bits.toNat < Channel.mask.toNat) : table.tagged? d = none := by
  have hnil : d ≠ Channel.nil := by
    rintro rfl
    rw [Channel.toNat_nil] at h
    omega
  have hbool (flag : Bool) : d ≠ Channel.ofBool flag := by
    rintro rfl
    rw [Channel.toNat_ofBool] at h
    omega
  have hmasked : ¬ Channel.isMasked d := by
    rw [Channel.isMasked_iff]
    omega
  rw [tagged?, if_neg hnil, if_neg (hbool true), if_neg (hbool false), if_neg hmasked]

/-- The magnitude of a double is a number. -/
theorem isNumber_abs (table : ValueTable ω) (d : Double) : table.IsNumber d.abs := by
  refine isNumber_of_tagged?_eq_none (tagged?_of_lt_mask ?_)
  rw [Double.toNat_abs, Channel.toNat_mask]
  omega

/-- The tags exceed the mask by one, two or three, or by the place of an entry and four. -/
theorem isTag_iff (hsize : table.size ≤ Channel.capacity) : table.IsTag d ↔
    ∃ payload, 0 < payload ∧ payload < table.size + 4 ∧
      d.bits.toNat = Channel.mask.toNat + payload := by
  constructor
  · rintro (⟨flag, rfl⟩ | rfl | ⟨k, hk, rfl⟩)
    · refine ⟨if flag then 1 else 2, ?_, ?_, Channel.toNat_ofBool flag⟩
      · split <;> omega
      · split <;> omega
    · exact ⟨3, by omega, by omega, Channel.toNat_nil⟩
    · exact ⟨k + 4, by omega, by omega, Channel.toNat_handle (by omega)⟩
  · -- the payload tells the tags apart
    rintro ⟨payload, hpos, hlt, hbits⟩
    by_cases h1 : payload = 1
    · exact .inl ⟨true, Channel.double_ext (by rw [hbits, Channel.toNat_ofBool, h1]; rfl)⟩
    by_cases h2 : payload = 2
    · exact .inl ⟨false, Channel.double_ext (by rw [hbits, Channel.toNat_ofBool, h2]; rfl)⟩
    by_cases h3 : payload = 3
    · exact .inr (.inl (Channel.double_ext (by rw [hbits, Channel.toNat_nil, h3])))
    · refine .inr (.inr ⟨payload - 4, by omega, Channel.double_ext ?_⟩)
      rw [hbits, Channel.toNat_handle (by omega)]
      omega

/-- A double is a number unless it is a tag. -/
theorem isNumber_iff_not_isTag (hboxed : table.HoldsBoxed)
    (hsize : table.size ≤ Channel.capacity) : table.IsNumber d ↔ ¬ table.IsTag d := by
  refine ⟨fun h htag => ?_, fun h => ⟨d, load_of_not_isTag hsize h⟩⟩
  have hnone := h.tagged?_eq_none hboxed
  -- each kind of tag is found as such
  rcases htag with ⟨flag, rfl⟩ | rfl | ⟨k, hk, rfl⟩
  · rw [tagged?_ofBool] at hnone
    cases hnone
  · cases hnone
  · rw [tagged?_handle (by omega)] at hnone
    exact absurd hk (Nat.not_lt.mpr (Array.getElem?_eq_none_iff.mp hnone))

/-- **The negative of a double is a number** unless the double is a positive NaN with the payload of
a tag. -/
theorem isNumber_neg_iff (hboxed : table.HoldsBoxed) (hsize : table.size ≤ Channel.capacity) :
    table.IsNumber d.neg ↔ ¬ ∃ payload, 0 < payload ∧ payload < table.size + 4 ∧
      d.bits.toNat = Double.positiveQuietBits + payload := by
  have hlt := d.bits.toNat_lt
  rw [isNumber_iff_not_isTag hboxed hsize, isTag_iff hsize, Double.toNat_neg, Channel.toNat_mask,
    Double.positiveQuietBits]
  refine not_congr (exists_congr fun payload => and_congr_right fun hpos => and_congr_right ?_)
  unfold Channel.capacity at hsize
  -- flipping the sign bit exchanges the positive and the negative quiet NaNs
  intro hpayload
  split <;> omega

end Numbers

end ValueTable

/-! ### Evaluators of arithmetic -/

/-- Prefix `+`, the magnitude, and the extremes of at least one operand. -/
inductive Symbol.Selects : Symbol → Prop
  | plus : Selects (.prefixOp (utf8 "+"))
  | abs : Selects (.function (utf8 "abs") (.exactly 1))
  | max (n : Nat) : Selects (.function (utf8 "max") (.exactly (n + 1)))
  | min (n : Nat) : Selects (.function (utf8 "min") (.exactly (n + 1)))

theorem foldl_select_mem (exceeds : Double → Double → Bool) (a : Double) (rest : List Double) :
    rest.foldl (fun best x => if exceeds best x then x else best) a ∈ a :: rest := by
  induction rest generalizing a with
  | nil => exact List.mem_singleton_self a
  | cons b rest ih =>
    rw [List.foldl_cons]
    -- the best so far is the first operand or one of the rest
    split
    · exact List.mem_cons_of_mem a (ih b)
    · have hrest := ih a
      rw [List.mem_cons] at hrest ⊢
      exact hrest.imp_right (List.mem_cons_of_mem b)

/-- An extreme of operands is one of them. -/
theorem exists_extreme_eq_ok (name : Text) (exceeds : Double → Double → Bool)
    {operands : List Double} (h : operands ≠ []) :
    ∃ result ∈ operands,
      (NumericFunction.extreme name exceeds : NumericFunction ω) operands = .ok result := by
  cases operands with
  | nil => exact absurd rfl h
  | cons a rest => exact ⟨_, foldl_select_mem exceeds a rest, rfl⟩

/-- What is no function of one or two arguments is one of any number of arguments, if anything. -/
theorem mathSymbol?_variadic {name : Text} (hunary : unaryFunctions.lookup name = none)
    (hbinary : binaryFunctions.lookup name = none) (count : Nat) :
    (mathSymbol? (.function name (.exactly count)) : Option (NumericFunction ω)) =
      variadicFunctions.lookup name := by
  match count with
  | 0 => rfl
  | 1 => rw [mathSymbol?, hunary]
  | 2 => rw [mathSymbol?, hbinary]
  | _ + 3 => rfl

/-- **Such a symbol selects** one of its operands, or the magnitude of one. -/
theorem Symbol.Selects.exists_function {symbol : Symbol} (h : symbol.Selects) :
    ∃ f : NumericFunction ω, mathSymbol? symbol = some f ∧
      ∀ operands, symbol.Takes operands.length → ∃ result, f operands = .ok result ∧
        (result ∈ operands ∨ ∃ d : Double, result = d.abs) := by
  cases h with
  | plus =>
    refine ⟨_, rfl, fun operands hcount => ?_⟩
    obtain ⟨d, rfl⟩ := List.length_eq_one_iff.mp hcount
    exact ⟨d, rfl, .inl (List.mem_singleton_self d)⟩
  | abs =>
    refine ⟨_, rfl, fun operands hcount => ?_⟩
    obtain ⟨d, rfl⟩ : ∃ d, operands = [d] :=
      List.length_eq_one_iff.mp (Arity.exactly.inj hcount).symm
    exact ⟨d.abs, rfl, .inr ⟨d, rfl⟩⟩
  | max n | min n =>
    refine ⟨_, mathSymbol?_variadic rfl rfl (n + 1), fun operands hcount => ?_⟩
    have hne : operands ≠ [] := List.ne_nil_of_length_eq_add_one (Arity.exactly.inj hcount).symm
    obtain ⟨result, hmem, hresult⟩ := exists_extreme_eq_ok (ω := ω) _ _ hne
    exact ⟨result, hresult, .inl hmem⟩

section Evaluators

variable {symbol : Symbol} {f : NumericFunction ω}

/-- A function of numbers is applied to operands that are numbers as they are. -/
theorem numeric_of_isNumber {machine : Machine σ ω} {operands : List Double} {result : Double}
    (hboxed : machine.table.HoldsBoxed) (hoperands : ∀ d ∈ operands, machine.table.IsNumber d)
    (hresult : f operands = .ok result) :
    MachineEvaluator.numeric symbol f operands machine = (.ok result, machine) := by
  have hnumbers : operands.mapM machine.table.number? = some operands := by
    clear hresult
    induction operands with
    | nil => rfl
    | cons d rest ih =>
      rw [List.forall_mem_cons] at hoperands
      have hd : machine.table.number? d = some d := by
        rw [ValueTable.number?, hoperands.1.tagged?_eq_none hboxed]
      rw [List.mapM_cons, hd, ih hoperands.2]
      rfl
  -- numbers are handed on unchanged, and the table is only read
  unfold MachineEvaluator.numeric MachineEvaluator.ofTable MachineEvaluator.onNumbers
  rw [hnumbers]
  exact Prod.ext hresult rfl

variable [Host ω] {logic : Bool}

/-- Apart from the sum, a symbol of arithmetic stands for its function of numbers. -/
theorem builtIn?_numeric (h : mathSymbol? symbol = some f) (hvar : ∀ name, symbol ≠ .var name)
    (hnotInfixOp : ∀ name, symbol ≠ .infixOp name) :
    builtIn? logic symbol = some (.plain (.numeric symbol f) : Meaning σ ω) := by
  have harithmetic : arithmeticSymbol? symbol =
      some (.numeric symbol f : MachineEvaluator σ ω) := by
    rw [arithmeticSymbol?, h, Option.map_some, if_neg (hnotInfixOp _)]
  unfold builtIn?
  cases symbol with
  | var name => exact absurd rfl (hvar name)
  | infixOp name => exact absurd rfl (hnotInfixOp name)
  | _ =>
    dsimp only
    rw [if_neg (by rintro ⟨⟩), harithmetic]

end Evaluators

/-- **Arithmetic on numbers yields numbers**, with one exception. After any history of a table, a
prefix `+`, the magnitude and the extremes yield a number for operands that are numbers. So does a
prefix `-`, unless its operand is a positive quiet NaN with a payload from one to three, or with one
that exceeds the place of an entry by four: this becomes the tag of that payload. -/
theorem arithmetic_isNumber [Host ω] (logic : Bool) (history : List (TableStep ω)) (host : σ) :
    let machine : Machine σ ω := ⟨host, ValueTable.empty.after history⟩
    (∀ symbol : Symbol, symbol.Selects → ∃ evaluator : MachineEvaluator σ ω,
      builtIn? logic symbol = some (.plain evaluator) ∧
      ∀ operands, symbol.Takes operands.length → (∀ d ∈ operands, machine.table.IsNumber d) →
        ∃ result, evaluator operands machine = (.ok result, machine) ∧
          machine.table.IsNumber result) ∧
    ∃ evaluator : MachineEvaluator σ ω,
      builtIn? logic (.prefixOp (utf8 "-")) = some (.plain evaluator) ∧
      ∀ d, machine.table.IsNumber d →
        evaluator [d] machine = (.ok d.neg, machine) ∧
        (machine.table.size ≤ Channel.capacity →
          (machine.table.IsNumber d.neg ↔
            ¬ ∃ payload, 0 < payload ∧ payload < machine.table.size + 4 ∧
              d.bits.toNat = Double.positiveQuietBits + payload)) := by
  intro machine
  have hboxed : machine.table.HoldsBoxed := ValueTable.holdsBoxed_after history
  constructor
  · intro symbol hselects
    obtain ⟨f, hf, hselected⟩ := hselects.exists_function (ω := ω)
    refine ⟨.numeric symbol f, ?_, fun operands hcount hoperands => ?_⟩
    · exact builtIn?_numeric hf (by rintro name rfl; cases hselects)
        (by rintro name rfl; cases hselects)
    · obtain ⟨result, hresult, hmem⟩ := hselected operands hcount
      refine ⟨result, numeric_of_isNumber hboxed hoperands hresult, ?_⟩
      -- what is selected was a number before, or is a magnitude
      rcases hmem with hmem | ⟨d, rfl⟩
      · exact hoperands result hmem
      · exact ValueTable.isNumber_abs machine.table d
  · refine ⟨_, builtIn?_numeric (f := NumericFunction.unary Double.neg) rfl (by rintro _ ⟨⟩)
      (by rintro _ ⟨⟩), fun d hd => ⟨?_, ValueTable.isNumber_neg_iff hboxed⟩⟩
    exact numeric_of_isNumber hboxed (List.forall_mem_singleton.mpr hd) rfl

/-- With one text in a table, the handle of a place behind it is a number, and so are the maximum of
this number and one, and the negative of one. The negative of a positive NaN with the payload four
is the handle of the text. -/
theorem arithmetic_isNumber_foreign :
    let foreign : Double := Channel.handle 1
    let machine : Machine Unit Empty :=
      ⟨(), ValueTable.empty.after [.store (.string (utf8 "a"))]⟩
    machine.table.IsNumber foreign ∧ machine.table.IsNumber .one ∧
      (∃ (maximum : MachineEvaluator Unit Empty) (result : Double),
        builtIn? true (.function (utf8 "max") (.exactly 2)) = some (.plain maximum) ∧
        maximum [foreign, .one] machine = (.ok result, machine) ∧
        machine.table.IsNumber result) ∧
      machine.table.IsNumber Double.one.neg ∧
      ¬ machine.table.IsNumber (Double.neg ⟨0x7FF8000000000004⟩) := by
  intro foreign machine
  have hforeign : machine.table.IsNumber foreign :=
    ⟨foreign, ValueTable.load_handle_of_size_le (by decide) (by decide)⟩
  have hone : machine.table.IsNumber .one := ⟨.one, rfl⟩
  have hpositive : machine.table.IsNumber ⟨0x7FF8000000000004⟩ := ⟨⟨0x7FF8000000000004⟩, rfl⟩
  have hsize : machine.table.size ≤ Channel.capacity := by decide
  obtain ⟨hselects, minus, -, hminus⟩ :=
    arithmetic_isNumber (ω := Empty) true [.store (.string (utf8 "a"))] ()
  refine ⟨hforeign, hone, ?_, ?_, ?_⟩
  · obtain ⟨maximum, hmaximum, hyields⟩ := hselects _ (.max 1)
    obtain ⟨result, hresult, hnumber⟩ := hyields [foreign, .one] rfl
      (List.forall_mem_cons.mpr ⟨hforeign, List.forall_mem_singleton.mpr hone⟩)
    exact ⟨maximum, result, hmaximum, hresult, hnumber⟩
  · refine ((hminus .one hone).2 hsize).mpr ?_
    -- one is no NaN
    rintro ⟨payload, -, -, hbits⟩
    have hlt : Double.one.bits.toNat < Double.positiveQuietBits := by decide
    omega
  · rw [(hminus _ hpositive).2 hsize, not_not]
    exact ⟨4, by decide, by decide, by decide⟩

/-- **The negative of a number can be nil**: here it is that of a positive NaN with the payload of
nil. -/
theorem arithmetic_neg_nil :
    ∃ (d : Double) (evaluator : MachineEvaluator Unit Empty),
      builtIn? true (.prefixOp (utf8 "-")) = some (.plain evaluator) ∧
      (ValueTable.empty : ValueTable Empty).load d = .double d ∧
      evaluator [d] ⟨(), .empty⟩ = (.ok Channel.nil, ⟨(), .empty⟩) ∧
      (ValueTable.empty : ValueTable Empty).load Channel.nil = .nil :=
  ⟨⟨0x7FF8000000000003⟩, _, rfl, rfl, rfl, rfl⟩

end DynExpr
