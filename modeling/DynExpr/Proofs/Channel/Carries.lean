import DynExpr.Operators
import DynExpr.Proofs.Channel.RoundTrip
import Mathlib.Data.List.Forall2
import Mathlib.Order.Basic

/-!
# What doubles stand for while a table grows

A double alone stands for nothing: a handle needs the table it points into. What makes handles
safe to pass on is that tables only grow in the course of an evaluation. So tables are ordered by
extension, `earlier ≤ later` if `later` begins with the entries of `earlier`, and whatever is
underway in a table stays underway in every later one.

* `ValueTable.Carries` relates a double to the value it stands for. It is kept by growth
  (`Carries.mono`), it decides what is received (`Carries.load`, `Carries.number?`), and it holds
  of what is sent (`carries_store`).
* `ValueTable.truncate_of_le` is the way back: a table that has grown is cut to what it was.
-/

namespace DynExpr

variable {ω : Type}

namespace ValueTable

/-! ### Extension -/

/-- Tables are ordered by extension. -/
instance : Preorder (ValueTable ω) where
  le earlier later := earlier.entries.toList <+: later.entries.toList
  le_refl table := List.prefix_refl table.entries.toList
  le_trans _ _ _ := List.IsPrefix.trans

/-- A table extends another one if it begins with the entries of that one. -/
theorem le_iff {earlier later : ValueTable ω} :
    earlier ≤ later ↔ earlier.entries.toList <+: later.entries.toList := Iff.rfl

variable {earlier later table : ValueTable ω}

/-- An extension is at least as large. -/
theorem size_le_size (h : earlier ≤ later) : earlier.size ≤ later.size := by
  have hlength := (le_iff.mp h).length_le
  rwa [Array.length_toList, Array.length_toList] at hlength

/-- An extension has the entries of the table in their places. -/
theorem getElem?_of_le (h : earlier ≤ later) {k : Nat} {v : Value ω}
    (hk : earlier.entries[k]? = some v) : later.entries[k]? = some v := by
  obtain ⟨rest, hrest⟩ := le_iff.mp h
  -- a place among the first entries is the same in the longer list
  rw [← Array.getElem?_toList] at hk ⊢
  rw [← hrest, List.getElem?_append_left (List.getElem?_eq_some_iff.mp hk).1, hk]

/-- Sending a value extends the table. -/
theorem le_store (table : ValueTable ω) (v : Value ω) : table ≤ (table.store v).2 := by
  -- only a boxed value is added, behind all entries
  rcases v.channel_cases with h | ⟨n, h⟩ | ⟨flag, rfl⟩ | ⟨x, rfl⟩ | h
  · rw [store_of_isNil table h]
  · rw [store_of_exactInteger? table h]
  · exact le_refl table
  · exact le_refl table
  · rw [store_of_isBoxed table h, add, le_iff, Array.toList_push]
    exact List.prefix_append _ _

/-- A table that has grown is cut to what it was. -/
theorem truncate_of_le (h : earlier ≤ later) : later.truncate earlier.size = earlier := by
  obtain ⟨rest, hrest⟩ := le_iff.mp h
  -- as many entries as the earlier table has are those of the earlier table
  have htake : (later.entries.take earlier.size).toList = earlier.entries.toList := by
    rw [Array.take_eq_extract, Array.toList_extract, ← hrest]
    simp [size]
  obtain ⟨entries⟩ := earlier
  exact congrArg ValueTable.mk (Array.toList_inj.mp htake)

/-! ### Carrying -/

/-- The double stands for the value: a number for itself, the tags for truth values and nil, and
the handle of an entry for the boxed value that the entry is. -/
inductive Carries (table : ValueTable ω) : Double → Value ω → Prop
  | number {x : Double} (h : ¬ Channel.Reserved x) : Carries table x (.double x)
  | bool (flag : Bool) : Carries table (Channel.ofBool flag) (.bool flag)
  | nil : Carries table Channel.nil .nil
  | entry {k : Nat} {v : Value ω} (hk : k < Channel.capacity)
      (hentry : table.entries[k]? = some v) (hboxed : v.isBoxed) :
      Carries table (Channel.handle k) v

namespace Carries

variable {d : Double} {v : Value ω}

/-- What is underway stays underway while the table grows. -/
theorem mono (h : earlier.Carries d v) (hle : earlier ≤ later) : later.Carries d v := by
  -- only an entry refers to the table, and entries stay in their places
  cases h with
  | number hx => exact .number hx
  | bool flag => exact .bool flag
  | nil => exact .nil
  | entry hk hentry hboxed => exact .entry hk (getElem?_of_le hle hentry) hboxed

/-- What is received of a double is the value that it stands for. -/
theorem load (hsize : table.size ≤ Channel.capacity) (h : table.Carries d v) :
    table.load d = v := by
  cases h with
  | number hx => exact load_of_not_reserved hsize hx
  | bool flag => exact load_ofBool flag
  | nil => exact load_nil
  | entry hk hentry hboxed => rw [load_handle hk, hentry, Option.getD_some]

/-- A double is read as the number of the value that it stands for. -/
theorem number? (hsize : table.size ≤ Channel.capacity) (h : table.Carries d v) :
    table.number? d = v.numeric? := by
  -- the tags decide first, and what has none is a number
  cases h with
  | number hx => rw [ValueTable.number?, tagged?_of_not_reserved hsize hx]; rfl
  | bool flag => rw [ValueTable.number?, tagged?_ofBool]
  | nil => rw [ValueTable.number?, tagged?_nil]
  | entry hk hentry hboxed => rw [ValueTable.number?, tagged?_handle hk, hentry]

/-- What is underway has its form already. -/
theorem norm_eq (h : table.Carries d v) : v.norm = v := by
  cases h with
  | number hx => exact Value.norm_double _
  | bool flag => exact Value.norm_bool flag
  | nil => exact Value.norm_nil
  | entry hk hentry hboxed => exact Value.norm_of_isBoxed hboxed

/-- Nil is told by its bits. -/
theorem eq_nil_iff (h : table.Carries d v) : d = Channel.nil ↔ v.isNil := by
  cases h with
  | number hx =>
    -- nil is reserved, and the number is not
    exact iff_of_false (fun heq => hx (heq ▸ Channel.reserved_nil)) Bool.false_ne_true
  | bool flag => exact iff_of_false (Channel.ofBool_ne_nil flag) Bool.false_ne_true
  | nil => exact iff_of_true rfl rfl
  | entry hk hentry hboxed =>
    -- nil has no entry, because it is not boxed
    refine iff_of_false (Channel.handle_ne_nil hk) ?_
    rw [Value.isNil_of_isBoxed hboxed]
    exact Bool.false_ne_true

end Carries

/-- **What is sent is underway**, unless it is a double that is reserved. -/
theorem carries_store {v : Value ω} (hsize : (table.store v).2.size ≤ Channel.capacity)
    (h : v.TagFree) : (table.store v).2.Carries (table.store v).1 v.norm := by
  rcases v.channel_cases with hnil | ⟨n, hint⟩ | ⟨flag, rfl⟩ | ⟨x, rfl⟩ | hboxed
  · rw [store_of_isNil table hnil, Value.norm_of_isNil hnil]
    exact .nil
  · have hfinite := (Double.ofInt_exact (Value.natAbs_le_of_exactInteger? hint)).1
    rw [store_of_exactInteger? table hint, Value.norm_of_exactInteger? hint]
    exact .number (Channel.not_reserved_of_isFinite hfinite)
  · exact .bool flag
  · exact .number (h x rfl)
  · -- the new entry is the last one, so the bound on the size bounds its place
    rw [store_of_isBoxed table hboxed] at hsize ⊢
    rw [size_add] at hsize
    rw [Value.norm_of_isBoxed hboxed]
    refine .entry hsize ?_ hboxed
    rw [add, size]
    exact Array.getElem?_push_size

/-! ### Lists -/

section Lists

variable {ds : List Double} {vs : List (Value ω)}

/-- A list of doubles is received as the values that they stand for. -/
theorem loadAll_of_carries (hsize : table.size ≤ Channel.capacity)
    (h : List.Forall₂ table.Carries ds vs) : table.loadAll ds = vs := by
  induction h with
  | nil => rfl
  | cons hd _ ih => rw [loadAll, List.map_cons, hd.load hsize, ← loadAll, ih]

/-- A list of doubles is read as the numbers of the values that they stand for. -/
theorem mapM_number?_of_carries (hsize : table.size ≤ Channel.capacity)
    (h : List.Forall₂ table.Carries ds vs) :
    ds.mapM table.number? = vs.mapM Value.numeric? := by
  induction h with
  | nil => rfl
  | cons hd _ ih => rw [List.mapM_cons, List.mapM_cons, hd.number? hsize, ih]

end Lists

end ValueTable

end DynExpr
