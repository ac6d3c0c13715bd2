import DynExpr.Channel
import DynExpr.Proofs.Double.Exact

/-!
# The bits of tags

A tagged double is `Channel.mask` with a number below `2 ^ 51` in its low bits, so its bits, read
as a natural number, are the mask *plus* that number. The other direction is what a receiver
computes: `Channel.isMasked` compares a double with the mask (`isMasked_iff`), and
`Channel.place` subtracts it (`place_of_le`), although both are written with bit operations.

* `Channel.Reserved` are the doubles above the mask. They are exactly the tags
  (`reserved_iff_tag`), as long as places are below `Channel.capacity`.
* `ValueTable.load_of_not_reserved`, `ValueTable.load_ofBool`, `ValueTable.load_nil` and
  `ValueTable.load_handle` say what a table yields for each of these.
-/

namespace DynExpr

namespace Channel

/-- The number of places that have a tag. -/
def capacity : Nat := 2 ^ 51 - 4

/-- The doubles that tags are made of: negative quiet NaNs with a payload. -/
def Reserved (d : Double) : Prop := mask < d.bits

instance : DecidablePred Reserved := fun d => inferInstanceAs (Decidable (mask < d.bits))

/-- Reserved doubles are compared as numbers. -/
theorem reserved_iff (d : Double) : Reserved d ↔ mask.toNat < d.bits.toNat :=
  UInt64.lt_iff_toNat_lt

/-- A double is given by its bits as a number. -/
theorem double_ext {d e : Double} (h : d.bits.toNat = e.bits.toNat) : d = e := by
  cases d
  cases e
  exact congrArg Double.mk (UInt64.toNat_inj.mp h)

/-! ### The mask -/

/-- The mask is thirteen ones in front of 51 zeros. -/
theorem toNat_mask : mask.toNat = 0x1FFF * 2 ^ 51 := by decide

/-- Of a word, the mask keeps all that is not below `2 ^ 51`. -/
theorem and_mask {x : Nat} (h : x < 2 ^ 64) :
    x &&& (0x1FFF * 2 ^ 51) = x / 2 ^ 51 * 2 ^ 51 := by
  -- a number is given by its high and its low bits
  have hhigh : (x &&& 0x1FFF * 2 ^ 51) / 2 ^ 51 = x / 2 ^ 51 := by
    rw [Nat.and_div_two_pow, Nat.mul_div_cancel _ (by decide)]
    exact Nat.and_two_pow_sub_one_of_lt_two_pow (n := 13) (by omega)
  have hlow : (x &&& 0x1FFF * 2 ^ 51) % 2 ^ 51 = 0 := by
    rw [Nat.and_mod_two_pow, Nat.mul_mod_left, Nat.and_zero]
  omega

/-- From a word not below the mask, the mask is subtracted. -/
theorem xor_mask {x : Nat} (hle : 0x1FFF * 2 ^ 51 ≤ x) (h : x < 2 ^ 64) :
    x ^^^ (0x1FFF * 2 ^ 51) = x - 0x1FFF * 2 ^ 51 := by
  -- the mask is below the word, so the high bits of the two are the same and cancel
  have hhigh : (x ^^^ 0x1FFF * 2 ^ 51) / 2 ^ 51 = 0 := by
    rw [Nat.xor_div_two_pow, Nat.mul_div_cancel _ (by decide),
      show x / 2 ^ 51 = 0x1FFF by omega, Nat.xor_self]
  have hlow : (x ^^^ 0x1FFF * 2 ^ 51) % 2 ^ 51 = x % 2 ^ 51 := by
    rw [Nat.xor_mod_two_pow, Nat.mul_mod_left, Nat.xor_zero]
  omega

/-- To a number below `2 ^ 51`, the mask is added. -/
theorem toNat_mask_or {tag : UInt64} (h : tag.toNat < 2 ^ 51) :
    (mask ||| tag).toNat = mask.toNat + tag.toNat := by
  rw [UInt64.toNat_or, toNat_mask, Nat.mul_comm, Nat.two_pow_add_eq_or_of_lt h]

/-- A double has all bits of the mask if it is not below it. -/
theorem isMasked_iff (d : Double) : isMasked d ↔ mask.toNat ≤ d.bits.toNat := by
  have hlt := d.bits.toNat_lt
  rw [isMasked, beq_iff_eq, ← UInt64.toNat_inj, UInt64.toNat_and, toNat_mask, and_mask hlt]
  omega

/-! ### Tags -/

theorem toNat_four : (4 : UInt64).toNat = 4 := rfl

/-- The tag of a truth value is the mask and one or two. -/
theorem toNat_ofBool (flag : Bool) :
    (ofBool flag).bits.toNat = mask.toNat + (if flag then 1 else 2) := by
  cases flag <;> decide

/-- The tag of nil is the mask and three. -/
theorem toNat_nil : nil.bits.toNat = mask.toNat + 3 := by decide

/-- A handle is the mask and its place, behind the tags of the other values. -/
theorem toNat_handle {k : Nat} (h : k < capacity) :
    (handle k).bits.toNat = mask.toNat + (k + 4) := by
  unfold capacity at h
  -- the sum does not wrap around below the capacity
  have htag : (UInt64.ofNat k + 4).toNat = k + 4 := by
    rw [UInt64.toNat_add, UInt64.toNat_ofNat', toNat_four]
    omega
  rw [handle, toNat_mask_or (by omega), htag]

/-- The place in a double is what is left without the mask and the other tags. -/
theorem place_of_le {d : Double} (h : mask.toNat + 4 ≤ d.bits.toNat) :
    place d = d.bits.toNat - mask.toNat - 4 := by
  have hlt := d.bits.toNat_lt
  rw [toNat_mask] at h ⊢
  rw [place, UInt64.toNat_sub, UInt64.toNat_xor, toNat_mask, xor_mask (by omega) hlt, toNat_four]
  omega

/-- The place in a double that is the mask itself wraps around, beyond all that have a tag. -/
theorem capacity_le_place {d : Double} (h : d.bits.toNat = mask.toNat) : capacity ≤ place d := by
  obtain rfl : d = ⟨mask⟩ := double_ext h
  decide

/-- A handle leads back to its place. -/
@[simp] theorem place_handle {k : Nat} (h : k < capacity) : place (handle k) = k := by
  have hbits := toNat_handle h
  rw [place_of_le (by omega), hbits]
  omega

/-- No handle is the tag of a truth value. -/
theorem handle_ne_ofBool {k : Nat} (h : k < capacity) (flag : Bool) : handle k ≠ ofBool flag := by
  intro heq
  have hbits := toNat_handle h
  rw [heq, toNat_ofBool] at hbits
  cases flag <;> simp at hbits

/-- No handle is the tag of nil. -/
theorem handle_ne_nil {k : Nat} (h : k < capacity) : handle k ≠ nil := by
  intro heq
  have hbits := toNat_handle h
  rw [heq, toNat_nil] at hbits
  omega

/-- No truth value has the tag of nil. -/
theorem ofBool_ne_nil (flag : Bool) : ofBool flag ≠ nil := by
  cases flag <;> decide

/-- The tags of truth values are reserved. -/
theorem reserved_ofBool (flag : Bool) : Reserved (ofBool flag) := by
  cases flag <;> decide

/-- The tag of nil is reserved. -/
theorem reserved_nil : Reserved nil := by decide

/-- Handles are reserved. -/
theorem reserved_handle {k : Nat} (h : k < capacity) : Reserved (handle k) := by
  rw [reserved_iff, toNat_handle h]
  omega

/-- **The reserved doubles are the tags.** -/
theorem reserved_iff_tag (d : Double) :
    Reserved d ↔ (∃ flag, d = ofBool flag) ∨ d = nil ∨ ∃ k, k < capacity ∧ d = handle k := by
  constructor
  · intro h
    have hlt := d.bits.toNat_lt
    rw [reserved_iff] at h
    -- the number that is added to the mask tells the tags apart
    by_cases h1 : d.bits.toNat = mask.toNat + 1
    · exact .inl ⟨true, double_ext (by rw [h1, toNat_ofBool]; rfl)⟩
    by_cases h2 : d.bits.toNat = mask.toNat + 2
    · exact .inl ⟨false, double_ext (by rw [h2, toNat_ofBool]; rfl)⟩
    by_cases h3 : d.bits.toNat = mask.toNat + 3
    · exact .inr (.inl (double_ext (by rw [h3, toNat_nil])))
    · have hk : d.bits.toNat - mask.toNat - 4 < capacity := by
        rw [toNat_mask] at *
        unfold capacity
        omega
      refine .inr (.inr ⟨_, hk, double_ext ?_⟩)
      rw [toNat_handle hk]
      omega
  · -- and all tags lie above the mask
    rintro (⟨flag, rfl⟩ | rfl | ⟨k, hk, rfl⟩)
    · exact reserved_ofBool flag
    · exact reserved_nil
    · exact reserved_handle hk

/-- A number is not reserved. -/
theorem not_reserved_of_isFinite {d : Double} (h : d.isFinite) : ¬ Reserved d := by
  have hlt := d.bits.toNat_lt
  have hfinite : d.magnitudeBits < Double.infinityBits := of_decide_eq_true h
  -- a finite number has another exponent than the mask
  unfold Double.magnitudeBits Double.infinityBits at hfinite
  rw [reserved_iff, toNat_mask]
  omega

end Channel

/-! ### Receiving -/

namespace ValueTable

variable {ω : Type} {table : ValueTable ω}

/-- A tag of a truth value stands for it in every table. -/
@[simp] theorem tagged?_ofBool (flag : Bool) :
    table.tagged? (Channel.ofBool flag) = some (.bool flag) := by
  cases flag <;> rfl

/-- The tag of nil stands for nil in every table. -/
@[simp] theorem tagged?_nil : table.tagged? Channel.nil = some .nil := rfl

/-- A handle leads to its entry, if there is one. -/
theorem tagged?_handle {k : Nat} (h : k < Channel.capacity) :
    table.tagged? (Channel.handle k) = table.entries[k]? := by
  have hmasked : Channel.isMasked (Channel.handle k) = true := by
    rw [Channel.isMasked_iff, Channel.toNat_handle h]
    omega
  -- the other tags are tried first
  rw [tagged?, if_neg (Channel.handle_ne_nil h), if_neg (Channel.handle_ne_ofBool h true),
    if_neg (Channel.handle_ne_ofBool h false), if_pos hmasked, Channel.place_handle h]

/-- A double that is not reserved carries no value by a tag. Only the mask itself needs the
bound on the table. -/
theorem tagged?_of_not_reserved (hsize : table.size ≤ Channel.capacity) {d : Double}
    (h : ¬ Channel.Reserved d) : table.tagged? d = none := by
  have hnil : d ≠ Channel.nil := fun heq => h (heq ▸ Channel.reserved_nil)
  have hbool (flag : Bool) : d ≠ Channel.ofBool flag :=
    fun heq => h (heq ▸ Channel.reserved_ofBool flag)
  rw [tagged?, if_neg hnil, if_neg (hbool true), if_neg (hbool false)]
  split
  · next hmasked =>
    rw [Channel.isMasked_iff] at hmasked
    rw [Channel.reserved_iff] at h
    -- the double is the mask itself, and its place lies behind every entry
    have hplace := Channel.capacity_le_place (d := d) (by omega)
    exact Array.getElem?_eq_none (Nat.le_trans hsize hplace)
  · rfl

/-- A tag of a truth value is received as the truth value. -/
@[simp] theorem load_ofBool (flag : Bool) : table.load (Channel.ofBool flag) = .bool flag := by
  rw [load, tagged?_ofBool, Option.getD_some]

/-- The tag of nil is received as nil. -/
@[simp] theorem load_nil : table.load Channel.nil = .nil := rfl

/-- A handle is received as its entry, and as a number if there is none. -/
theorem load_handle {k : Nat} (h : k < Channel.capacity) :
    table.load (Channel.handle k) = (table.entries[k]?).getD (.double (Channel.handle k)) := by
  rw [load, tagged?_handle h]

/-- A double that is not reserved is received as a number. -/
theorem load_of_not_reserved (hsize : table.size ≤ Channel.capacity) {d : Double}
    (h : ¬ Channel.Reserved d) : table.load d = .double d := by
  rw [load, tagged?_of_not_reserved hsize h, Option.getD_none]

end ValueTable

end DynExpr
