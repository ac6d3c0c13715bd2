import DynExpr.Proofs.Value.Numbers
import DynExpr.Value.Equality
import Mathlib.Data.List.Find
import Mathlib.Data.List.Forall2

/-!
# What equality sees of a value

Equality and hashing do not tell the representations of a value apart: nil from null, a string from
a window, an array from a slice. The `Value.form` of a value is what is left without them, and both
are functions of it (`comparison_eq_form`, `hash_eq_form`).

* `Value.parts` are the values that a value is made of; `Value.induction` goes from the parts to
  the whole.
* `comparison_flip`: `Value.comparison` is defined for both directions at once, and the two are the
  same comparison with the sides exchanged.
* `equal_iff_form` reads equality off two forms, by the rules of `Form.Equal`. For dictionaries
  these speak of `Dictionary.find?`, the entry that a look-up takes.
-/

namespace DynExpr

variable {ω : Type}

/-! ### Forms -/

/-- A value without parts that is neither nil, nor a number, a text or an object. -/
inductive Atom
  | bool (flag : Bool)
  | character (text : Text)
  | index (offset : UInt64)
  | intRange (range : Range Int64)
  | indexRange (range : Range UInt64)
deriving DecidableEq

/-- A value without its representation. -/
inductive Form (ω : Type)
  | nil
  | number (number : Number)
  | text (text : Text)
  | atom (atom : Atom)
  | sequence (elements : List (Value ω))
  | tuple (elements : List (Value ω))
  | dictionary (entries : Dictionary.Entries ω)
  | object (object : ω)

/-- The form of a value. -/
def Value.form : Value ω → Form ω
  | nil | null => .nil
  | bool flag => .atom (.bool flag)
  | double x => .number (.double x)
  | int64 n => .number (.int64 n)
  | uint64 n => .number (.uint64 n)
  | string text => .text text
  | substring window => .text window.text
  | character text => .atom (.character text)
  | index offset => .atom (.index offset)
  | intRange range => .atom (.intRange range)
  | indexRange range => .atom (.indexRange range)
  | array elements => .sequence elements
  | slice elements => .sequence elements
  | dictionary _ entries => .dictionary entries
  | tuple elements => .tuple elements
  | object o => .object o

/-! ### Parts -/

/-- The values in a form: elements, or keys and values. -/
def Form.parts : Form ω → List (Value ω)
  | sequence elements => elements
  | tuple elements => elements
  | dictionary entries => entries.map (·.1) ++ entries.map (·.2)
  | _ => []

/-- Keys are parts. -/
theorem Form.key_mem_parts {entries : Dictionary.Entries ω} {e : Value ω × Value ω}
    (h : e ∈ entries) : e.1 ∈ (Form.dictionary entries).parts :=
  List.mem_append_left _ (List.mem_map_of_mem h)

/-- The values of entries are parts. -/
theorem Form.value_mem_parts {entries : Dictionary.Entries ω} {e : Value ω × Value ω}
    (h : e ∈ entries) : e.2 ∈ (Form.dictionary entries).parts :=
  List.mem_append_right _ (List.mem_map_of_mem h)

namespace Value

/-- The values that a value is made of. -/
def parts (v : Value ω) : List (Value ω) := v.form.parts

/-- A part is smaller than the whole. -/
theorem sizeOf_lt_of_mem_parts {v p : Value ω} (h : p ∈ v.parts) : sizeOf p < sizeOf v := by
  cases v with
  | array elements | slice elements | tuple elements =>
    have := List.sizeOf_lt_of_mem (show p ∈ elements from h)
    simp only [array.sizeOf_spec, slice.sizeOf_spec, tuple.sizeOf_spec]
    omega
  | dictionary keys entries =>
    -- a key or a value is smaller than its entry, and the entry than the list
    obtain ⟨e, he, hsize⟩ : ∃ e ∈ entries, sizeOf p < sizeOf e := by
      rcases List.mem_append.mp h with h | h
      all_goals
        obtain ⟨⟨k, v⟩, he, rfl⟩ := List.mem_map.mp h
        refine ⟨_, he, ?_⟩
        simp only [Prod.mk.sizeOf_spec]
        omega
    have := List.sizeOf_lt_of_mem he
    simp only [dictionary.sizeOf_spec]
    omega
  | _ => exact absurd h List.not_mem_nil

/-- From the parts to the whole. -/
theorem induction {motive : Value ω → Prop} (h : ∀ v, (∀ p ∈ v.parts, motive p) → motive v)
    (v : Value ω) : motive v :=
  h v fun p _ => induction h p
termination_by sizeOf v
decreasing_by exact sizeOf_lt_of_mem_parts ‹_›

end Value

/-! ### Look-ups -/

section Found

variable [Host ω]

/-- The sought key meets the stored one. -/
structure Value.Meets (key stored : Value ω) : Prop where
  hash : stored.hash = key.hash
  equal : key.equal stored

/-- The test of a look-up decides whether keys meet. -/
theorem Dictionary.meets_iff {key stored : Value ω} :
    meets key.hash key stored ↔ key.Meets stored := by
  unfold meets
  rw [Bool.and_eq_true, beq_iff_eq]
  exact ⟨fun h => ⟨h.1, h.2⟩, fun h => ⟨h.1, h.2⟩⟩

/-- The first entry that a look-up meets. -/
def Dictionary.find? (entries : Entries ω) (key : Value ω) : Option (Value ω × Value ω) :=
  (meetingOrder entries).find? fun entry => meets key.hash key entry.1

/-- What a look-up takes is an entry that the key meets. -/
theorem Dictionary.of_find? {entries : Entries ω} {key : Value ω} {entry : Value ω × Value ω}
    (h : find? entries key = some entry) : entry ∈ entries ∧ key.Meets entry.1 := by
  unfold find? at h
  have hmeets := List.find?_some h
  exact ⟨(mem_meetingOrder _ _).mp (List.mem_of_find?_eq_some h), meets_iff.mp hmeets⟩

/-- A look-up takes an entry if the key meets any. -/
theorem Dictionary.exists_find? {entries : Entries ω} {key : Value ω} {entry : Value ω × Value ω}
    (hmem : entry ∈ entries) (h : key.Meets entry.1) : ∃ found, find? entries key = some found := by
  rw [← Option.isSome_iff_exists, find?, List.find?_isSome]
  exact ⟨entry, (mem_meetingOrder _ _).mpr hmem, meets_iff.mpr h⟩

end Found

/-! ### Comparison by forms -/

/-- A look-up meets changed entries in the same order. -/
theorem meetFirst_map {α β : Type} (f : α → β) (count : Nat) (met : List α) (entry : α) :
    meetFirst count (met.map f) (f entry) = (meetFirst count met entry).map f := by
  unfold meetFirst
  split <;> simp

/-- The order in which entries are met depends on their number only. -/
theorem meetingOrder_map {α β : Type} (f : α → β) (entries : List α) :
    meetingOrder (entries.map f) = (meetingOrder entries).map f := by
  -- the entries that were met already are changed as well, for an induction on the others
  have hfrom : ∀ count (met : List α), meetingOrderFrom count (met.map f) (entries.map f) =
      (meetingOrderFrom count met entries).map f := by
    induction entries with
    | nil => exact fun _ _ => rfl
    | cons entry rest ih =>
      intro count met
      simp only [List.map_cons, meetingOrderFrom, meetFirst_map, ih]
  exact hfrom 0 []

variable [Host ω]

/-- Compares two forms, in either direction. -/
def Form.comparison (flipped : Bool) : Form ω → Form ω → Bool
  | .nil, .nil => true
  | .number m, .number n => m.equal n
  | .text s, .text t => t == s
  | .atom p, .atom q => p == q
  | .sequence elements, .sequence others => Value.comparisonAll flipped elements others
  | .tuple elements, .tuple others => Value.comparisonAll flipped elements others
  | .dictionary entries, .dictionary others =>
    entries.length == others.length &&
      (if flipped then Value.findsEach (Value.entryTests flipped entries) others
        else Value.eachFound (Value.entryTests flipped entries) others)
  | .object o, .object p => if flipped then Value.objectsEqual p o else Value.objectsEqual o p
  | _, _ => false

namespace Value

/-- A number is compared with the number of the other value, if it has one. -/
theorem any_equal_eq_form (flipped : Bool) (number : Number) (b : Value ω) :
    b.number?.any (Number.equal number) = Form.comparison flipped (.number number) b.form := by
  cases b <;> rfl

/-- **Representations do not count** in a comparison. -/
theorem comparison_eq_form (flipped : Bool) (a b : Value ω) :
    comparison flipped a b = Form.comparison flipped a.form b.form := by
  cases a with
  -- the three kinds of numbers share one comparison; the other values are compared constructor by
  -- constructor
  | double _ | int64 _ | uint64 _ =>
    rw [comparison]
    exact any_equal_eq_form flipped _ b
  | _ =>
    cases b <;>
      simp [comparison, Form.comparison, form, isNil, text?, elements?, entries?, beq_eq_decide]

/-! ### The two directions -/

/-- Lists are compared alike in both directions if their elements are. -/
theorem comparisonAll_flip {flipped : Bool} {elements : List (Value ω)}
    (h : ∀ a ∈ elements, ∀ b, comparison flipped a b = comparison (!flipped) b a)
    (others : List (Value ω)) :
    comparisonAll flipped elements others = comparisonAll (!flipped) others elements := by
  induction elements generalizing others with
  | nil => cases others <;> rfl
  | cons a rest ih =>
    rw [List.forall_mem_cons] at h
    cases others with
    | nil => rfl
    | cons b others => rw [comparisonAll, comparisonAll, h.1 b, ih h.2 others]

/-- An entry is tested by the hash of its key, by the key in the direction of the comparison, and by
the value in the opposite direction. -/
theorem entryTests_eq_map (flipped : Bool) (entries : Dictionary.Entries ω) :
    entryTests flipped entries = entries.map fun e =>
      ⟨e.1.hash, comparison flipped e.1, comparison (!flipped) e.2⟩ := by
  induction entries with
  | nil => rfl
  | cons e rest ih => rw [entryTests, ih, List.map_cons]

/-- To find each entry among tested ones is to test the entries and find each among the others. -/
theorem findsEach_eq_eachFound {entries others : Dictionary.Entries ω}
    (hkeys : ∀ e ∈ entries, ∀ f ∈ others, comparison true e.1 f.1 = comparison false f.1 e.1)
    (hvalues : ∀ e ∈ entries, ∀ f ∈ others, comparison false e.2 f.2 = comparison true f.2 e.2) :
    findsEach (entryTests true entries) others = eachFound (entryTests false others) entries := by
  unfold findsEach eachFound
  rw [entryTests_eq_map, entryTests_eq_map, meetingOrder_map, List.all_map, Bool.eq_iff_iff,
    List.all_eq_true, List.all_eq_true]
  refine forall₂_congr fun f hf => ?_
  -- the same entry is met in both directions
  have hmet : ∀ e ∈ meetingOrder entries,
      (hash e.1 == hash f.1 && comparison true e.1 f.1) =
        (hash e.1 == hash f.1 && comparison false f.1 e.1) := by
    intro e he
    rw [hkeys e ((mem_meetingOrder _ _).mp he) f hf]
  simp only [List.find?_map, Function.comp_def]
  rw [List.find?_congr hmet]
  -- and the values of this entry are compared alike
  cases hfound : (meetingOrder entries).find? fun e =>
      hash e.1 == hash f.1 && comparison false f.1 e.1 with
  | none => exact Iff.rfl
  | some e =>
    have he := (mem_meetingOrder _ _).mp (List.mem_of_find?_eq_some hfound)
    exact Bool.eq_iff_iff.mp (hvalues e he f hf)

end Value

/-- The two directions are one comparison of forms if they are one for the parts. -/
theorem Form.comparison_flip {x : Form ω}
    (h : ∀ p ∈ x.parts, ∀ flipped b, Value.comparison flipped p b = Value.comparison (!flipped) b p)
    (flipped : Bool) (y : Form ω) :
    Form.comparison flipped x y = Form.comparison (!flipped) y x := by
  -- forms of different shapes are different in both directions; of one shape, the parts decide
  cases x with
  | nil => cases y <;> rfl
  | number m =>
    cases y with
    | number n => exact Number.equal_comm m n
    | _ => rfl
  | text s =>
    cases y with
    | text t => exact BEq.comm
    | _ => rfl
  | atom p =>
    cases y with
    | atom q => exact BEq.comm
    | _ => rfl
  | sequence elements =>
    cases y with
    | sequence others => exact Value.comparisonAll_flip (fun p hp => h p hp flipped) others
    | _ => rfl
  | tuple elements =>
    cases y with
    | tuple others => exact Value.comparisonAll_flip (fun p hp => h p hp flipped) others
    | _ => rfl
  | dictionary entries =>
    cases y with
    | dictionary others =>
      have hkeys : ∀ flipped, ∀ e ∈ entries, ∀ f : Value ω × Value ω,
          Value.comparison flipped e.1 f.1 = Value.comparison (!flipped) f.1 e.1 :=
        fun flipped e he f => h e.1 (key_mem_parts he) flipped f.1
      have hvalues : ∀ flipped, ∀ e ∈ entries, ∀ f : Value ω × Value ω,
          Value.comparison flipped e.2 f.2 = Value.comparison (!flipped) f.2 e.2 :=
        fun flipped e he f => h e.2 (value_mem_parts he) flipped f.2
      have hlength : (entries.length == others.length) = (others.length == entries.length) :=
        BEq.comm
      -- one direction tests the entries that are looked at, the other one those that are looked up
      -- in
      cases flipped with
      | true =>
        exact congrArg₂ and hlength (Value.findsEach_eq_eachFound
          (fun e he f _ => hkeys true e he f) (fun e he f _ => hvalues false e he f))
      | false =>
        exact congrArg₂ and hlength (Value.findsEach_eq_eachFound
          (fun e _ f hf => (hkeys false f hf e).symm)
          (fun e _ f hf => (hvalues true f hf e).symm)).symm
    | _ => rfl
  | object o =>
    cases y with
    | object p => cases flipped <;> rfl
    | _ => rfl

/-- **The two directions of a comparison** are one comparison with the sides exchanged. -/
theorem Value.comparison_flip (flipped : Bool) (a b : Value ω) :
    comparison flipped a b = comparison (!flipped) b a := by
  induction a using Value.induction generalizing flipped b with
  | h a ih =>
    -- on the parts of the first value, in both directions at once, as values of entries are
    -- compared backwards
    rw [comparison_eq_form, comparison_eq_form]
    exact Form.comparison_flip (fun p hp flipped b => ih p hp flipped b) flipped b.form

/-! ### Equality by forms -/

/-- When two forms are equal. -/
inductive Form.Equal : Form ω → Form ω → Prop
  | nil : Equal .nil .nil
  | number {m n : Number} (h : m.equal n) : Equal (.number m) (.number n)
  | text (s : Text) : Equal (.text s) (.text s)
  | atom (p : Atom) : Equal (.atom p) (.atom p)
  | sequence {elements others : List (Value ω)}
      (h : List.Forall₂ (fun a b => a.equal b) elements others) :
      Equal (.sequence elements) (.sequence others)
  | tuple {elements others : List (Value ω)}
      (h : List.Forall₂ (fun a b => a.equal b) elements others) :
      Equal (.tuple elements) (.tuple others)
  | dictionary {entries others : Dictionary.Entries ω} (hlength : entries.length = others.length)
      (hfound : ∀ e ∈ entries, ∃ f, Dictionary.find? others e.1 = some f ∧ f.2.equal e.2) :
      Equal (.dictionary entries) (.dictionary others)
  | object {o p : ω} (h : Value.objectsEqual o p) : Equal (.object o) (.object p)

namespace Value

/-- Lists are equal if their elements are, one by one. -/
theorem comparisonAll_iff {elements others : List (Value ω)} :
    comparisonAll false elements others ↔
      List.Forall₂ (fun a b => a.equal b) elements others := by
  induction elements generalizing others with
  | nil => cases others <;> simp [comparisonAll]
  | cons a rest ih =>
    cases others with
    | nil => simp [comparisonAll]
    | cons b others =>
      rw [comparisonAll, Bool.and_eq_true, ih, List.forall₂_cons]
      exact Iff.rfl

/-- Each entry is found if a look-up of its key takes one with an equal value. -/
theorem eachFound_iff {entries others : Dictionary.Entries ω} :
    eachFound (entryTests false entries) others ↔
      ∀ e ∈ entries, ∃ f, Dictionary.find? others e.1 = some f ∧ f.2.equal e.2 := by
  unfold eachFound
  rw [entryTests_eq_map, List.all_map, List.all_eq_true]
  refine forall₂_congr fun e _ => ?_
  have hfind : (meetingOrder others).find? (fun f => hash f.1 == hash e.1 &&
      comparison false e.1 f.1) = Dictionary.find? others e.1 := rfl
  dsimp only [Function.comp_def]
  rw [hfind]
  cases Dictionary.find? others e.1 with
  | none => simp
  | some f =>
    -- values are compared in the opposite direction
    change comparison true e.2 f.2 = true ↔ _
    rw [comparison_flip]
    simp [equal]

/-- **Equality is decided by the forms.** -/
theorem equal_iff_form {a b : Value ω} : a.equal b ↔ Form.Equal a.form b.form := by
  unfold equal
  rw [comparison_eq_form]
  generalize a.form = x
  generalize b.form = y
  -- what is left is one comparison of two forms
  constructor
  · intro h
    -- forms of different shapes are compared as different, so the shape of the second one is that
    -- of the first
    cases x with
    | nil =>
      cases y with
      | nil => exact .nil
      | _ => exact nomatch h
    | number m =>
      cases y with
      | number n => exact .number h
      | _ => exact nomatch h
    | text s =>
      cases y with
      | text t =>
        -- texts, like atoms, are compared by their contents
        obtain rfl := beq_iff_eq.mp h
        exact .text _
      | _ => exact nomatch h
    | atom p =>
      cases y with
      | atom q =>
        obtain rfl := beq_iff_eq.mp h
        exact .atom _
      | _ => exact nomatch h
    | sequence elements =>
      cases y with
      -- elements are compared one by one, those of a tuple alike
      | sequence others => exact .sequence (comparisonAll_iff.mp h)
      | _ => exact nomatch h
    | tuple elements =>
      cases y with
      | tuple others => exact .tuple (comparisonAll_iff.mp h)
      | _ => exact nomatch h
    | dictionary entries =>
      cases y with
      | dictionary others =>
        -- dictionaries of one size, where each entry of the first is found in the second
        obtain ⟨hlength, hfound⟩ := Bool.and_eq_true_iff.mp h
        exact .dictionary (beq_iff_eq.mp hlength) (eachFound_iff.mp hfound)
      | _ => exact nomatch h
    | object o =>
      cases y with
      | object p => exact .object h
      | _ => exact nomatch h
  · intro h
    -- each rule is one case of the comparison
    cases h with
    | nil => rfl
    | number h => exact h
    | text s => exact beq_self_eq_true s
    | atom p => exact beq_self_eq_true p
    | sequence h | tuple h => exact comparisonAll_iff.mpr h
    | dictionary hlength hfound =>
      exact Bool.and_eq_true_iff.mpr ⟨beq_iff_eq.mpr hlength, eachFound_iff.mpr hfound⟩
    | object h => exact h

end Value

/-! ### Hashing by forms -/

/-- The hash of an atom. -/
def Atom.hash (ω : Type) [Host ω] : Atom → UInt64
  | bool flag => (Value.bool flag : Value ω).hash
  | character text => (Value.character text : Value ω).hash
  | index offset => (Value.index offset : Value ω).hash
  | intRange range => (Value.intRange range : Value ω).hash
  | indexRange range => (Value.indexRange range : Value ω).hash

/-- The hash of a form. -/
def Form.hash : Form ω → UInt64
  | .nil => 0
  | .number n => Value.hashNumber ω n
  | .text s => Host.hashText ω s
  | .atom p => p.hash ω
  | .sequence elements => Value.hashAll (UInt64.ofNat elements.length) elements
  | .tuple elements => Value.hashAll (UInt64.ofNat elements.length + 1) elements
  | .dictionary entries => UInt64.ofNat entries.length + Value.hashEntries entries
  | .object o => Host.hash o

/-- Representations do not count in a hash. -/
theorem Value.hash_eq_form (v : Value ω) : v.hash = v.form.hash := by
  cases v <;> rw [hash] <;> rfl

end DynExpr
