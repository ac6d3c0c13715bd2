import DynExpr.Proofs.Value.Forms
import DynExpr.Value.Coercion

/-!
# Values that can be compared

Equality is defined for all values, but the operators of equality refuse some: a value with an
object that lacks structural comparison, a container beside anything but a container of its kind,
and tuples of an unusual size. `Value.Comparable` says which are left.

A value supports structural comparison if every object that it holds does (`isHashable_iff`). What
is in the keys of a dictionary does not count as held.

The class of a value is a matter of its form, and equal values are of one class
(`category_eq_of_equal`). So where values of different classes are compared at all, the answer that
they are unequal is the right one, and the operators agree with equality (`equalValues_agrees`).
-/

namespace DynExpr

variable {ω : Type}

/-- The kinds of containers. -/
inductive ContainerKind
  | sequence
  | dictionary
  | tuple
deriving DecidableEq

/-- The class of the containers of a kind. -/
def ContainerKind.category : ContainerKind → Category
  | sequence => .sequence
  | dictionary => .dictionary
  | tuple => .tuple

/-- The class of the values of a form. -/
def Form.category : Form ω → Category
  | nil => .nil
  | number _ => .number
  | text _ => .text
  | atom (.bool _) => .boolean
  | atom (.character _) => .character
  | atom (.index _) => .index
  | atom (.intRange _) => .intRange
  | atom (.indexRange _) => .indexRange
  | sequence _ => .sequence
  | tuple _ => .tuple
  | dictionary _ => .dictionary
  | object _ => .object

namespace Value

/-! ### What is held -/

/-- The elements of a sequence or a tuple, the values of a dictionary. -/
def members : Value ω → List (Value ω)
  | array elements | slice elements | tuple elements => elements
  | dictionary _ entries => entries.map (·.2)
  | _ => []

/-- The object is the value, or is held by a member of it. -/
inductive Holds : Value ω → ω → Prop
  | object (o : ω) : Holds (.object o) o
  | member {v m : Value ω} {o : ω} (hm : m ∈ v.members) (h : Holds m o) : Holds v o

/-- Members are parts. -/
theorem mem_parts_of_mem_members {v m : Value ω} (h : m ∈ v.members) : m ∈ v.parts := by
  cases v with
  | dictionary keys entries => exact List.mem_append_right _ h
  | _ => exact h

/-- A value holds itself, if it is an object, and what its members hold. -/
theorem holds_iff {v : Value ω} {o : ω} :
    v.Holds o ↔ v = .object o ∨ ∃ m ∈ v.members, m.Holds o := by
  constructor
  · intro h
    cases h with
    | object => exact .inl rfl
    | member hm h => exact .inr ⟨_, hm, h⟩
  · rintro (rfl | ⟨m, hm, h⟩)
    · exact .object o
    · exact .member hm h

/-! ### Values that can be compared -/

/-- The kind of container that a value is, if it is one. Arrays and slices are of one kind. -/
def container? : Value ω → Option ContainerKind
  | array _ | slice _ => some .sequence
  | dictionary _ _ => some .dictionary
  | tuple _ => some .tuple
  | _ => none

/-- If the value is a tuple, it has two to six elements. -/
def TupleOfSize (v : Value ω) : Prop :=
  ∀ elements, v = .tuple elements → 2 ≤ elements.length ∧ elements.length ≤ 6

section Host

variable [Host ω]

/-- Every object that the value holds supports structural comparison. -/
def SupportsComparison (v : Value ω) : Prop := ∀ o, v.Holds o → Host.isHashable o = true

/-- The values can be compared: one of them is nil, or both support structural comparison and are
no containers, or containers of the same kind, and tuples among these are of a usual size. -/
def Comparable (a b : Value ω) : Prop :=
  a.isNil = true ∨ b.isNil = true ∨
    a.SupportsComparison ∧ b.SupportsComparison ∧ a.container? = b.container? ∧
      a.TupleOfSize ∧ b.TupleOfSize

/-- Whether values can be compared does not depend on their order. -/
theorem Comparable.symm {a b : Value ω} (h : a.Comparable b) : b.Comparable a := by
  rcases h with h | h | ⟨ha, hb, hkind, hsize, hsize'⟩
  · exact .inr (.inl h)
  · exact .inl h
  · exact .inr (.inr ⟨hb, ha, hkind.symm, hsize', hsize⟩)

/-! ### Support of structural comparison -/

/-- A list is hashable if its elements are. -/
theorem allHashable_iff {elements : List (Value ω)} :
    allHashable elements = true ↔ ∀ e ∈ elements, e.isHashable = true := by
  induction elements with
  | nil => simp [allHashable]
  | cons e rest ih => rw [allHashable, Bool.and_eq_true, ih, List.forall_mem_cons]

/-- Entries are hashable if their values are. -/
theorem allValuesHashable_iff {entries : Dictionary.Entries ω} :
    allValuesHashable entries = true ↔ ∀ e ∈ entries.map (·.2), e.isHashable = true := by
  induction entries with
  | nil => simp [allValuesHashable]
  | cons entry rest ih =>
    rw [allValuesHashable, Bool.and_eq_true, ih, List.map_cons, List.forall_mem_cons]

/-- A value is hashable if its members are, and an object if the host says so. -/
theorem isHashable_step (v : Value ω) :
    v.isHashable = true ↔
      (∀ o, v = .object o → Host.isHashable o = true) ∧ ∀ m ∈ v.members, m.isHashable = true := by
  cases v with
  | array elements | slice elements | tuple elements =>
    rw [isHashable, allHashable_iff]
    exact (and_iff_right fun o h => (nomatch h)).symm
  | dictionary keys entries =>
    rw [isHashable, allValuesHashable_iff]
    exact (and_iff_right fun o h => (nomatch h)).symm
  -- an object has no members, so the host decides alone
  | object o =>
    rw [isHashable]
    constructor
    · intro h
      refine ⟨?_, fun m hm => absurd hm List.not_mem_nil⟩
      rintro _ ⟨⟩
      exact h
    · exact fun h => h.1 o rfl
  | _ =>
    exact iff_of_true (by simp [isHashable])
      ⟨fun o h => (nomatch h), fun m hm => absurd hm List.not_mem_nil⟩

/-- **A value is hashable** if and only if every object that it holds supports structural
comparison. -/
theorem isHashable_iff {v : Value ω} : v.isHashable = true ↔ v.SupportsComparison := by
  -- the induction is over all parts of a value, and the members are among them
  induction v using Value.induction with
  | h v ih =>
    have hmembers : (∀ m ∈ v.members, m.isHashable = true) ↔
        ∀ m ∈ v.members, m.SupportsComparison :=
      forall₂_congr fun m hm => ih m (mem_parts_of_mem_members hm)
    rw [isHashable_step, hmembers]
    constructor
    · -- a held object is the value itself, or held by a member
      rintro ⟨hobject, hheld⟩ o h
      rcases holds_iff.mp h with rfl | ⟨m, hm, h⟩
      · exact hobject o rfl
      · exact hheld m hm o h
    · intro h
      refine ⟨?_, fun m hm o hholds => h o (.member hm hholds)⟩
      rintro o rfl
      exact h o (.object o)

end Host

/-! ### Classes -/

/-- A class is one of single values or that of a kind of containers. -/
theorem isScalar_category (v : Value ω) : v.category.isScalar = v.container?.isNone := by
  cases v <;> rfl

/-- The kind of a container is its class. -/
theorem container?_eq_some_iff {v : Value ω} {kind : ContainerKind} :
    v.container? = some kind ↔ v.category = kind.category := by
  cases v <;> cases kind <;> simp [container?, category, ContainerKind.category]

/-- Values of one class are containers of one kind, or none. -/
theorem container?_eq_of_category_eq {a b : Value ω} (h : a.category = b.category) :
    a.container? = b.container? := by
  refine Option.ext fun kind => ?_
  rw [container?_eq_some_iff, container?_eq_some_iff, h]

/-- Containers of one kind are of one class; values of different classes that agree in this are
single ones. -/
theorem category_eq_or_isScalar {a b : Value ω} (h : a.container? = b.container?) :
    a.category = b.category ∨ a.category.isScalar = true ∧ b.category.isScalar = true := by
  rw [isScalar_category, isScalar_category, ← h]
  -- values of one kind of containers are of the class of the kind
  cases hkind : a.container? with
  | none => exact .inr ⟨rfl, rfl⟩
  | some kind =>
    rw [hkind] at h
    exact .inl ((container?_eq_some_iff.mp hkind).trans (container?_eq_some_iff.mp h.symm).symm)

/-- The size is checked of tuples only. -/
theorem hasComparableSize_iff {v : Value ω} : v.hasComparableSize = true ↔ v.TupleOfSize := by
  cases v with
  | tuple elements =>
    simp only [hasComparableSize, Bool.and_eq_true, decide_eq_true_eq, TupleOfSize]
    constructor
    · rintro h _ ⟨⟩
      exact h
    · exact fun h => h elements rfl
  | _ => exact iff_of_true rfl fun elements h => nomatch h

/-- A value that is no container passes the check of the size. -/
theorem hasComparableSize_of_container?_eq_none {v : Value ω} (h : v.container? = none) :
    v.hasComparableSize = true := by
  cases v with
  | tuple elements => cases h
  | _ => rfl

/-- The class of a value is a matter of its form. -/
theorem category_eq_form (v : Value ω) : v.category = v.form.category := by
  cases v <;> rfl

/-- Nil and null have one form. -/
theorem isNil_iff_form {v : Value ω} : v.isNil = true ↔ v.form = .nil := by
  cases v <;> simp [isNil, form]

end Value

/-- Equal forms are of one class. -/
theorem Form.Equal.category_eq [Host ω] {x y : Form ω} (h : Form.Equal x y) :
    x.category = y.category := by
  cases h <;> rfl

/-- Only nil equals nil. -/
theorem Form.Equal.eq_nil_iff [Host ω] {x y : Form ω} (h : Form.Equal x y) :
    x = .nil ↔ y = .nil := by
  cases h <;> simp

namespace Value

section Equality

variable [Host ω] {a b : Value ω}

/-- **Equal values are of one class.** -/
theorem category_eq_of_equal (h : a.equal b = true) : a.category = b.category := by
  rw [category_eq_form, category_eq_form]
  exact (equal_iff_form.mp h).category_eq

/-- Nil equals nil, and nothing else. -/
theorem equal_of_isNil (h : a.isNil = true ∨ b.isNil = true) :
    a.equal b = (a.isNil && b.isNil) := by
  rw [Bool.eq_iff_iff, Bool.and_eq_true, equal_iff_form]
  rw [isNil_iff_form, isNil_iff_form] at h ⊢
  constructor
  · intro hequal
    rcases h with h | h
    · exact ⟨h, hequal.eq_nil_iff.mp h⟩
    · exact ⟨hequal.eq_nil_iff.mpr h, h⟩
  · rintro ⟨ha, hb⟩
    rw [ha, hb]
    exact .nil

end Equality

end Value

/-! ### The operators of equality -/

section Operators

variable [Host ω] {a b : Value ω} (symbol : Symbol)

/-- Values that can be compared are answered by equality. -/
theorem equalValues_of_comparable (h : a.Comparable b) :
    equalValues symbol a b = .ok (a.equal b) := by
  -- nil is answered before anything else is asked
  by_cases hnil : a.isNil = true ∨ b.isNil = true
  · rw [Value.equal_of_isNil hnil, equalValues, if_pos (by simpa using hnil)]
  · obtain ⟨ha, hb, hkind, hsize, hsize'⟩ :=
      (h.resolve_left fun h => hnil (.inl h)).resolve_left fun h => hnil (.inr h)
    rw [← Value.isHashable_iff] at ha hb
    rw [← Value.hasComparableSize_iff] at hsize hsize'
    -- the checks that could refuse are passed in their order
    rw [equalValues, if_neg (by simpa using hnil), if_neg (by simp [ha, hb])]
    by_cases hclass : a.category = b.category
    · rw [if_neg (not_not_intro hclass), if_neg (by simp [hsize, hsize'])]
    · -- single values of different classes
      have hscalar := (Value.category_eq_or_isScalar hkind).resolve_left hclass
      have hunequal : a.equal b = false :=
        Bool.eq_false_iff.mpr fun h => hclass (Value.category_eq_of_equal h)
      rw [if_pos hclass, if_pos (by simpa using hscalar), hunequal]

/-- All other values are refused. -/
theorem equalValues_of_not_comparable (h : ¬ a.Comparable b) :
    equalValues symbol a b = .error (.typeMismatch symbol [a, b]) := by
  unfold Value.Comparable at h
  rw [not_or, not_or, ← Value.isHashable_iff, ← Value.isHashable_iff,
    ← Value.hasComparableSize_iff, ← Value.hasComparableSize_iff] at h
  obtain ⟨ha, hb, h⟩ := h
  rw [equalValues, if_neg (by simp [ha, hb])]
  -- one of the three checks refuses: of the objects that are held, of the classes or of the sizes
  by_cases hhashable : a.isHashable = true ∧ b.isHashable = true
  · rw [if_neg (by simp [hhashable])]
    by_cases hclass : a.category = b.category
    · -- containers of one kind, so tuples of an unusual size
      have hsize : ¬ (a.hasComparableSize = true ∧ b.hasComparableSize = true) := fun hsize =>
        h ⟨hhashable.1, hhashable.2, Value.container?_eq_of_category_eq hclass, hsize.1, hsize.2⟩
      rw [if_neg (not_not_intro hclass), if_pos]
      rw [not_and_or] at hsize
      simpa using hsize
    · -- a container beside a value of another class
      rw [if_pos hclass, if_neg]
      intro hscalar
      rw [Bool.and_eq_true, Value.isScalar_category, Value.isScalar_category,
        Option.isNone_iff_eq_none, Option.isNone_iff_eq_none] at hscalar
      exact h ⟨hhashable.1, hhashable.2, hscalar.1.trans hscalar.2.symm,
        Value.hasComparableSize_of_container?_eq_none hscalar.1,
        Value.hasComparableSize_of_container?_eq_none hscalar.2⟩
  · rw [if_pos]
    rw [not_and_or] at hhashable
    simpa using hhashable

/-- **The operators of equality agree with equality.** Values that can be compared are compared in
either order, and the answer is whether they are equal; all others are refused in either order. -/
theorem equalValues_agrees (a b : Value ω) :
    (a.Comparable b ∧ equalValues symbol a b = .ok (a.equal b) ∧
      equalValues symbol b a = .ok (b.equal a)) ∨
    (¬ a.Comparable b ∧ equalValues symbol a b = .error (.typeMismatch symbol [a, b]) ∧
      equalValues symbol b a = .error (.typeMismatch symbol [b, a])) := by
  by_cases h : a.Comparable b
  · exact .inl ⟨h, equalValues_of_comparable symbol h, equalValues_of_comparable symbol h.symm⟩
  · exact .inr ⟨h, equalValues_of_not_comparable symbol h,
      equalValues_of_not_comparable symbol fun hflip => h hflip.symm⟩

end Operators

end DynExpr
