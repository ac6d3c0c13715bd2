import DynExpr.Proofs.Channel.Tag

/-!
# What is received of a value that is sent

Five classes of values travel differently (`Value.channel_cases`): nil and null, integers of
magnitude at most `2 ^ 53`, truth values, doubles, and the *boxed* rest, of which alone an entry
is made. `ValueTable.store` has one equation for each class, and `ValueTable.roundTrip` is the
value that is received.

The main statement is `ValueTable.roundTrip_spec`. Null arrives as nil, a small integer as the
double of its value, and all else as it was sent, except that a double that is a tag arrives as
what the tag stands for. `Value.norm` is this change of form, without the exception:
`ValueTable.roundTrip_eq_norm`.
-/

namespace DynExpr

variable {ω : Type}

namespace Value

/-! ### The classes of values -/

/-- The integer that a value represents, if its magnitude is at most `2 ^ 53`. -/
def exactInteger? : Value ω → Option Int
  | int64 n => if n.toInt.natAbs ≤ 2 ^ 53 then some n.toInt else none
  | uint64 n => if n.toNat ≤ 2 ^ 53 then some (n.toNat : Int) else none
  | _ => none

/-- The value travels as an entry of a table: it is neither a double nor a truth value, nil, null
or an integer of magnitude at most `2 ^ 53`. -/
def isBoxed : Value ω → Bool
  | nil | null | bool _ | double _ => false
  | v => v.exactInteger?.isNone

/-- The form in which a value arrives: null as nil, and an integer of magnitude at most `2 ^ 53`
as the equal double. -/
def norm (v : Value ω) : Value ω :=
  match v.exactInteger? with
  | some n => double (Double.ofInt n)
  | none => if v.isNil then nil else v

/-- The value is not a double that is reserved. -/
def TagFree (v : Value ω) : Prop := ∀ x, v = double x → ¬ Channel.Reserved x

/-- A small integer has a magnitude of `2 ^ 53` at most. -/
theorem natAbs_le_of_exactInteger? {v : Value ω} {n : Int} (h : v.exactInteger? = some n) :
    n.natAbs ≤ 2 ^ 53 := by
  unfold exactInteger? at h
  -- both integer types ask for the same bound
  split at h
  · split at h
    · next hle => exact Option.some.inj h ▸ hle
    · exact absurd h (by simp)
  · split at h
    · next hle => exact Option.some.inj h ▸ hle
    · exact absurd h (by simp)
  · exact absurd h (by simp)

/-- Every value is nil or null, a small integer, a truth value, a double, or boxed. -/
theorem channel_cases (v : Value ω) :
    v.isNil ∨ (∃ n, v.exactInteger? = some n) ∨ (∃ flag, v = bool flag) ∨
      (∃ x, v = double x) ∨ v.isBoxed := by
  -- the integer decides first, and the constructors tell the rest apart
  cases hn : v.exactInteger? with
  | some n => exact .inr (.inl ⟨n, rfl⟩)
  | none => cases v <;> simp_all [isNil, isBoxed]

/-! ### The change of form -/

/-- Doubles keep their form. -/
@[simp] theorem norm_double (x : Double) : (double x : Value ω).norm = double x := rfl

/-- Truth values keep their form. -/
@[simp] theorem norm_bool (flag : Bool) : (bool flag : Value ω).norm = bool flag := rfl

/-- Nil keeps its form. -/
@[simp] theorem norm_nil : (nil : Value ω).norm = nil := rfl

/-- Null takes the form of nil. -/
theorem norm_of_isNil {v : Value ω} (h : v.isNil) : v.norm = nil := by
  cases v <;> first | rfl | exact absurd h (by simp [isNil])

/-- A small integer takes the form of a double. -/
theorem norm_of_exactInteger? {v : Value ω} {n : Int} (h : v.exactInteger? = some n) :
    v.norm = double (Double.ofInt n) := by
  rw [norm, h]

/-- A boxed value is no small integer. -/
theorem exactInteger?_of_isBoxed {v : Value ω} (h : v.isBoxed) : v.exactInteger? = none := by
  cases v <;> first | rfl | simpa [isBoxed] using h

/-- A small integer is not boxed. -/
theorem isBoxed_of_exactInteger? {v : Value ω} {n : Int} (h : v.exactInteger? = some n) :
    v.isBoxed = false := by
  cases v <;> first | rfl | simp [isBoxed, h]

/-- Nil and null are not boxed. -/
theorem isBoxed_of_isNil {v : Value ω} (h : v.isNil) : v.isBoxed = false := by
  cases v <;> first | rfl | exact absurd h (by simp [isNil])

/-- A boxed value is neither nil nor null. -/
theorem isNil_of_isBoxed {v : Value ω} (h : v.isBoxed) : v.isNil = false := by
  cases v <;> first | rfl | exact absurd h (by simp [isBoxed])

/-- A boxed value keeps its form. -/
theorem norm_of_isBoxed {v : Value ω} (h : v.isBoxed) : v.norm = v := by
  rw [norm, exactInteger?_of_isBoxed h]
  exact if_neg (by simp [isNil_of_isBoxed h])

/-- A value that is not nil, null or a small integer keeps its form. -/
theorem norm_eq_self {v : Value ω} (hnil : ¬ v.isNil) (hint : v.exactInteger? = none) :
    v.norm = v := by
  rw [norm, hint]
  exact if_neg hnil

end Value

namespace ValueTable

/-! ### Sending -/

variable (table : ValueTable ω)

/-- A double is sent as it is. -/
@[simp] theorem store_double (x : Double) : table.store (.double x) = (x, table) := rfl

/-- A truth value is sent as its tag. -/
@[simp] theorem store_bool (flag : Bool) :
    table.store (.bool flag) = (Channel.ofBool flag, table) := rfl

/-- Nil and null are sent as the tag of nil. -/
theorem store_of_isNil {v : Value ω} (h : v.isNil) : table.store v = (Channel.nil, table) := by
  cases v <;> first | rfl | exact absurd h (by simp [Value.isNil])

/-- A small integer is sent as the double of its value. -/
theorem store_of_exactInteger? {v : Value ω} {n : Int} (h : v.exactInteger? = some n) :
    table.store v = (Double.ofInt n, table) := by
  unfold Value.exactInteger? at h
  split at h
  · split at h
    · next m hle =>
      obtain rfl := Option.some.inj h
      exact if_pos (by unfold Channel.exactLimit; omega)
    · exact absurd h (by simp)
  · split at h
    · next m hle =>
      obtain rfl := Option.some.inj h
      exact if_pos (by unfold Channel.exactLimit; omega)
    · exact absurd h (by simp)
  · exact absurd h (by simp)

/-- A boxed value is sent as the handle of a new entry. -/
theorem store_of_isBoxed {v : Value ω} (h : v.isBoxed) : table.store v = table.add v := by
  have hint := Value.exactInteger?_of_isBoxed h
  unfold store
  split
  · exact absurd h (by simp [Value.isBoxed])
  · exact absurd h (by simp [Value.isBoxed])
  · exact absurd h (by simp [Value.isBoxed])
  · exact absurd h (by simp [Value.isBoxed])
  · -- an integer that is boxed lies beyond the limit of those that are sent as doubles
    next m =>
    have hlarge : ¬ m.toInt.natAbs ≤ 2 ^ 53 :=
      fun hle => Option.some_ne_none _ ((if_pos hle).symm.trans hint)
    exact if_neg (by unfold Channel.exactLimit; omega)
  · next m =>
    have hlarge : ¬ m.toNat ≤ 2 ^ 53 :=
      fun hle => Option.some_ne_none _ ((if_pos hle).symm.trans hint)
    exact if_neg (by unfold Channel.exactLimit; omega)
  · rfl

/-- Adding makes one entry. -/
@[simp] theorem size_add (v : Value ω) : (table.add v).2.size = table.size + 1 := by
  simp [add, size]

/-- An entry is made of boxed values only. -/
theorem size_store (v : Value ω) :
    (table.store v).2.size = table.size + (if v.isBoxed then 1 else 0) := by
  -- one case for each class, with its equation
  rcases v.channel_cases with h | ⟨n, h⟩ | ⟨flag, rfl⟩ | ⟨x, rfl⟩ | h
  · rw [store_of_isNil table h, Value.isBoxed_of_isNil h]
    rfl
  · rw [store_of_exactInteger? table h, Value.isBoxed_of_exactInteger? h]
    rfl
  · rfl
  · rfl
  · rw [store_of_isBoxed table h, size_add, if_pos h]

/-! ### Sending and receiving -/

/-- What is received of a value that is sent. -/
def roundTrip (v : Value ω) : Value ω := (table.store v).2.load (table.store v).1

variable {table}

/-- A boxed value is received as it is. -/
theorem roundTrip_of_isBoxed (hsize : table.size < Channel.capacity) {v : Value ω}
    (h : v.isBoxed) : table.roundTrip v = v := by
  -- the entry that is made is the last one
  have hlast : (table.add v).2.entries[table.size]? = some v := by
    simp [add, size]
  rw [roundTrip, store_of_isBoxed table h, add, load_handle hsize]
  change ((table.add v).2.entries[table.size]?).getD _ = v
  rw [hlast, Option.getD_some]

/-- **The change of form.** A value arrives in its form, unless it is a double that is
reserved. -/
theorem roundTrip_eq_norm (hsize : table.size < Channel.capacity) {v : Value ω}
    (h : v.TagFree) : table.roundTrip v = v.norm := by
  rcases v.channel_cases with hnil | ⟨n, hint⟩ | ⟨flag, rfl⟩ | ⟨x, rfl⟩ | hboxed
  · rw [roundTrip, store_of_isNil table hnil, load_nil, Value.norm_of_isNil hnil]
  · -- a small integer becomes a finite double, which is no tag
    have hfinite := (Double.ofInt_exact (Value.natAbs_le_of_exactInteger? hint)).1
    rw [roundTrip, store_of_exactInteger? table hint, Value.norm_of_exactInteger? hint]
    exact load_of_not_reserved (Nat.le_of_lt hsize) (Channel.not_reserved_of_isFinite hfinite)
  · rw [roundTrip, store_bool, load_ofBool, Value.norm_bool]
  · -- this is the only class in which a tag could be sent by accident
    rw [roundTrip, store_double, Value.norm_double]
    exact load_of_not_reserved (Nat.le_of_lt hsize) (h x rfl)
  · rw [roundTrip_of_isBoxed hsize hboxed, Value.norm_of_isBoxed hboxed]

/-- The doubles that a table receives as something else: the tags of truth values and of nil,
and the handles of its entries. -/
def IsTag (table : ValueTable ω) (x : Double) : Prop :=
  (∃ flag, x = Channel.ofBool flag) ∨ x = Channel.nil ∨ ∃ k, k < table.size ∧ x = Channel.handle k

/-- A double that is no tag is received as it is. -/
theorem load_of_not_isTag (hsize : table.size ≤ Channel.capacity) {x : Double}
    (h : ¬ table.IsTag x) : table.load x = .double x := by
  by_cases hreserved : Channel.Reserved x
  · -- of the reserved doubles, only handles of entries to come are no tags of this table
    rcases (Channel.reserved_iff_tag x).mp hreserved with htag | htag | ⟨k, hk, rfl⟩
    · exact absurd (.inl htag) h
    · exact absurd (.inr (.inl htag)) h
    · -- the handle of a place behind the last entry
      have hout : table.size ≤ k := by
        by_cases hlt : k < table.size
        · exact absurd (.inr (.inr ⟨k, hlt, rfl⟩)) h
        · omega
      rw [load_handle hk, Array.getElem?_eq_none hout, Option.getD_none]
  · exact load_of_not_reserved hsize hreserved

/-- **Exact round trip.** Nil and null arrive as nil, an integer of magnitude at most `2 ^ 53` as
the double of the same value, and every other value as it is, bit for bit, with one exception: a
double that is the tag of a truth value, of nil or of an entry arrives as what the tag stands for.
A boxed value takes one entry, and any other takes none. -/
theorem roundTrip_spec (table : ValueTable ω) (hsize : table.size < Channel.capacity)
    (v : Value ω) :
    (v.isNil → table.roundTrip v = .nil) ∧
    (∀ n, v.exactInteger? = some n → ∃ x, table.roundTrip v = .double x ∧ x.isFinite ∧
      x.units = n * Double.unitsPerOne ∧ x.negative = decide (n < 0)) ∧
    (∀ flag, v = .double (Channel.ofBool flag) → table.roundTrip v = .bool flag) ∧
    (v = .double Channel.nil → table.roundTrip v = .nil) ∧
    (∀ k, (hk : k < table.size) → v = .double (Channel.handle k) →
      table.roundTrip v = table.entries[k]) ∧
    (¬ v.isNil → v.exactInteger? = none → (∀ x, v = .double x → ¬ table.IsTag x) →
      table.roundTrip v = v) ∧
    (table.store v).2.size = table.size + (if v.isBoxed then 1 else 0) := by
  refine ⟨?_, ?_, ?_, ?_, ?_, ?_, ?_⟩
  · -- nil and null
    intro h
    rw [roundTrip, store_of_isNil table h, load_nil]
  · -- a small integer: its double is exact, and no tag
    intro n h
    obtain ⟨hfinite, hunits, hsign⟩ := Double.ofInt_exact (Value.natAbs_le_of_exactInteger? h)
    refine ⟨Double.ofInt n, ?_, hfinite, hunits, hsign⟩
    rw [roundTrip, store_of_exactInteger? table h]
    exact load_of_not_reserved (Nat.le_of_lt hsize) (Channel.not_reserved_of_isFinite hfinite)
  · -- a double that is the tag of a truth value
    rintro flag rfl
    rw [roundTrip, store_double, load_ofBool]
  · -- a double that is the tag of nil
    rintro rfl
    rw [roundTrip, store_double, load_nil]
  · -- a double that is the handle of an entry
    rintro k hk rfl
    have hentry : table.entries[k]? = some table.entries[k] := Array.getElem?_eq_getElem hk
    rw [roundTrip, store_double, load_handle (Nat.lt_trans hk hsize), hentry, Option.getD_some]
  · -- all else
    intro hnil hint htag
    cases v with
    | double x => exact load_of_not_isTag (Nat.le_of_lt hsize) (htag x rfl)
    | _ =>
      rw [roundTrip_eq_norm hsize (fun x h => by cases h)]
      exact Value.norm_eq_self hnil hint
  · exact size_store table v

/-- A double of the host that happens to be the handle of an entry arrives as the entry. -/
theorem roundTrip_foreign_handle :
    (⟨#[.string (utf8 "a")]⟩ : ValueTable Empty).size < Channel.capacity ∧
      (⟨#[.string (utf8 "a")]⟩ : ValueTable Empty).roundTrip (.double (Channel.handle 0)) =
        .string (utf8 "a") := by
  have hsize : (⟨#[.string (utf8 "a")]⟩ : ValueTable Empty).size < Channel.capacity := by decide
  obtain ⟨-, -, -, -, hhandle, -⟩ := roundTrip_spec ⟨#[.string (utf8 "a")]⟩ hsize
    (.double (Channel.handle 0))
  exact ⟨hsize, hhandle 0 Nat.zero_lt_one rfl⟩

end ValueTable

end DynExpr
