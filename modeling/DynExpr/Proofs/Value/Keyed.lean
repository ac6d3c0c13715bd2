import DynExpr.Proofs.Value.Forms

/-!
# Values with proper keys

What is assumed of a value is assumed of all values in it, at any depth (`Value.Everywhere`): that
its dictionaries were built by storing entries (`Value.Built`), that its numbers are among certain
ones (`Value.Over`), or those in its keys (`Value.KeysOver`).

A value is over the numbers that occur in it (`Value.HasNumber`, `Value.over_hasNumber`), and its
keys are over those that occur in keys (`Value.KeyHasNumber`, `Value.keysOver_keyHasNumber`).
`Value.KeysApart` says of two values that the numbers in their keys do not clash.

A dictionary that is built has distinct keys: an entry is only added if its key meets no key
before it (`Dictionary.ofEntries_distinct`). Distinct keys whose numbers do not clash are all that
the comparison of dictionaries needs, so both are put together in `Value.Keyed`.
-/

namespace DynExpr

variable {ω : Type}

namespace Value

/-! ### Properties of all values in a value -/

/-- The property holds for a value and for all values in it. -/
inductive Everywhere (P : Value ω → Prop) : Value ω → Prop
  | intro {v : Value ω} (self : P v) (parts : ∀ p ∈ v.parts, Everywhere P p) : Everywhere P v

namespace Everywhere

variable {P Q : Value ω → Prop} {v p : Value ω}

/-- What holds everywhere holds of the value. -/
theorem self (h : Everywhere P v) : P v := by
  obtain ⟨hself, -⟩ := h
  exact hself

/-- What holds everywhere holds everywhere in a part. -/
theorem part (h : Everywhere P v) (hp : p ∈ v.parts) : Everywhere P p := by
  obtain ⟨-, hparts⟩ := h
  exact hparts p hp

/-- In a value without parts there is nothing else. -/
theorem of_parts_eq_nil (hparts : v.parts = []) (hself : P v) : Everywhere P v :=
  ⟨hself, fun _ hp => absurd (hparts ▸ hp) List.not_mem_nil⟩

/-- What follows from the property holds everywhere too. -/
theorem mono (himp : ∀ v, P v → Q v) (h : Everywhere P v) : Everywhere Q v := by
  induction h with
  | intro hself _ ih => exact ⟨himp _ hself, ih⟩

end Everywhere

/-- All numbers in the value are among certain ones. -/
def Over (S : Number → Prop) : Value ω → Prop :=
  Everywhere fun v => ∀ number, v.number? = some number → S number

/-- All numbers in the keys of the dictionaries in the value are among certain ones. -/
def KeysOver (S : Number → Prop) : Value ω → Prop :=
  Everywhere fun v => ∀ entries, v.entries? = some entries → ∀ e ∈ entries, e.1.Over S

/-- No number in the value is a NaN. -/
def NaNFree : Value ω → Prop := Over fun number => number.toDouble.isNaN = false

/-- All integers in the value are of magnitude `2 ^ 53` at most. -/
def Exact : Value ω → Prop := Over Number.Exact

/-- Every dictionary in the value was built by storing entries. -/
def Built [Host ω] : Value ω → Prop :=
  Everywhere fun v => ∀ kind entries, v = .dictionary kind entries →
    ∃ given, Dictionary.ofEntries kind given = .ok entries

/-- Only numbers have the form of a number. -/
theorem number?_eq_some {v : Value ω} {number : Number} :
    v.number? = some number ↔ v.form = .number number := by
  cases v <;> simp [number?, form]

/-- Only dictionaries have the form of a dictionary. -/
theorem entries?_eq_some {v : Value ω} {entries : Dictionary.Entries ω} :
    v.entries? = some entries ↔ v.form = .dictionary entries := by
  cases v <;> simp [entries?, form]

section Over

variable {S T : Number → Prop} {v : Value ω}

/-- Numbers are among more numbers. -/
theorem Over.mono (himp : ∀ number, S number → T number) (h : v.Over S) : v.Over T :=
  Everywhere.mono (fun _ hself number hnumber => himp number (hself number hnumber)) h

/-- Numbers in keys are among more numbers. -/
theorem KeysOver.mono (himp : ∀ number, S number → T number) (h : v.KeysOver S) :
    v.KeysOver T :=
  Everywhere.mono (fun _ hself entries hentries e he => (hself entries hentries e he).mono himp) h

/-- The keys of a dictionary are parts of it. -/
theorem key_mem_parts {entries : Dictionary.Entries ω} {e : Value ω × Value ω}
    (hentries : v.entries? = some entries) (he : e ∈ entries) : e.1 ∈ v.parts := by
  unfold parts
  rw [entries?_eq_some.mp hentries]
  exact Form.key_mem_parts he

/-- What is known of all numbers is known of those in keys. -/
theorem Over.keysOver (h : v.Over S) : v.KeysOver S := by
  induction v using Value.induction with
  | h v ih =>
    -- keys are parts, of which the same is known
    refine ⟨fun entries hentries e he => ?_, fun p hp => ih p hp (h.part hp)⟩
    exact h.part (key_mem_parts hentries he)

end Over

/-! ### The numbers that occur -/

/-- The number occurs in the value, at any depth. -/
inductive HasNumber : Value ω → Number → Prop
  | self {v : Value ω} {number : Number} (h : v.number? = some number) : HasNumber v number
  | part {v p : Value ω} {number : Number} (hp : p ∈ v.parts) (h : HasNumber p number) :
      HasNumber v number

/-- A dictionary in the value has the key, at any depth. -/
inductive HasKey : Value ω → Value ω → Prop
  | entry {v : Value ω} {entries : Dictionary.Entries ω} {e : Value ω × Value ω}
      (hentries : v.entries? = some entries) (he : e ∈ entries) : HasKey v e.1
  | part {v p key : Value ω} (hp : p ∈ v.parts) (h : HasKey p key) : HasKey v key

/-- The number occurs in a key of the value. -/
def KeyHasNumber (v : Value ω) (number : Number) : Prop :=
  ∃ key, v.HasKey key ∧ key.HasNumber number

/-- Among the numbers in the keys of two values, no integers clash at a double. -/
def KeysApart (a b : Value ω) : Prop :=
  Number.Apart (fun l => a.KeyHasNumber l ∨ b.KeyHasNumber l)
    (fun m => a.KeyHasNumber m ∨ b.KeyHasNumber m) (fun n => a.KeyHasNumber n ∨ b.KeyHasNumber n)

/-- The numbers of a value are those that occur in it. -/
theorem over_hasNumber (v : Value ω) : v.Over v.HasNumber := by
  induction v using Value.induction with
  | h v ih => exact ⟨fun _ => .self, fun p hp => (ih p hp).mono fun _ => .part hp⟩

/-- The numbers in the keys of a value are those that occur in its keys. -/
theorem keysOver_keyHasNumber (v : Value ω) : v.KeysOver v.KeyHasNumber := by
  induction v using Value.induction with
  | h v ih =>
    refine ⟨fun entries hentries e he => ?_, fun p hp => (ih p hp).mono ?_⟩
    · exact (over_hasNumber e.1).mono fun _ hnumber => ⟨e.1, .entry hentries he, hnumber⟩
    · -- a key in a part is a key in the whole
      rintro number ⟨key, hkey, hnumber⟩
      exact ⟨key, .part hp hkey, hnumber⟩

/-- A number that occurs is among the numbers. -/
theorem Over.of_hasNumber {S : Number → Prop} {v : Value ω} {number : Number} (h : v.Over S)
    (hnumber : v.HasNumber number) : S number := by
  induction hnumber with
  | self hnumber => exact h.self _ hnumber
  | part hp _ ih => exact ih (h.part hp)

/-- What is known of the numbers in keys is known of each key. -/
theorem KeysOver.key {S : Number → Prop} {v key : Value ω} (h : v.KeysOver S)
    (hkey : v.HasKey key) : key.Over S := by
  induction hkey with
  | entry hentries he => exact h.self _ hentries _ he
  | part hp _ ih => exact ih (h.part hp)

/-- Keys over numbers that do not clash are apart. -/
theorem KeysOver.keysApart {S : Number → Prop} {a b : Value ω} (hS : Number.Apart S S S)
    (ha : a.KeysOver S) (hb : b.KeysOver S) : a.KeysApart b := by
  have hkeys : ∀ number, a.KeyHasNumber number ∨ b.KeyHasNumber number → S number := by
    rintro number (⟨key, hkey, hnumber⟩ | ⟨key, hkey, hnumber⟩)
    · exact (ha.key hkey).of_hasNumber hnumber
    · exact (hb.key hkey).of_hasNumber hnumber
  exact hS.mono hkeys hkeys hkeys

end Value

/-- The numbers of the form are among certain ones. -/
structure Form.Over (S : Number → Prop) (x : Form ω) : Prop where
  number : ∀ number, x = .number number → S number
  parts : ∀ p ∈ x.parts, p.Over S

/-- The numbers of a value are those of its form. -/
theorem Value.Over.form {S : Number → Prop} {v : Value ω} (h : v.Over S) : v.form.Over S :=
  ⟨fun number hform => h.self number (number?_eq_some.mpr hform), fun _ => h.part⟩

/-! ### Distinct keys -/

namespace Dictionary

variable {entries : Entries ω} {key value : Value ω}

/-- Overwriting a value leaves the keys. -/
theorem map_fst_modify (place : Nat) :
    (entries.modify place fun entry => (entry.1, value)).map (·.1) = entries.map (·.1) := by
  induction entries generalizing place with
  | nil => cases place <;> rfl
  | cons entry rest ih =>
    cases place with
    | zero => rfl
    | succ place => rw [List.modify_succ_cons, List.map_cons, List.map_cons, ih]

variable [Host ω]

/-- No key of an entry meets the key of an earlier one. -/
def Distinct (entries : Entries ω) : Prop :=
  (entries.map (·.1)).Pairwise fun earlier later => ¬ later.Meets earlier

/-- A key without a place meets no key. -/
theorem not_meets_of_place? (h : place? entries key = none) :
    ∀ e ∈ entries, ¬ key.Meets e.1 := by
  intro e he hmeets
  rw [place?, Option.map_eq_none_iff, List.find?_eq_none] at h
  obtain ⟨i, hi, rfl⟩ := List.mem_iff_getElem.mp he
  -- every entry is tried, at its place
  have hmem : (entries[i], i) ∈ meetingOrder entries.zipIdx :=
    (mem_meetingOrder _ _).mpr (List.mk_mem_zipIdx_iff_getElem?.mpr (List.getElem?_eq_getElem hi))
  exact h _ hmem (meets_iff.mpr hmeets)

/-- Storing an entry keeps the keys distinct. -/
theorem Distinct.store (h : Distinct entries) : Distinct (store entries key value) := by
  unfold Dictionary.store
  cases hplace : place? entries key with
  -- an entry that is overwritten keeps its key
  | some place =>
    unfold Distinct
    rw [map_fst_modify]
    exact h
  -- an entry that is added has a key that meets none
  | none =>
    unfold Distinct
    rw [List.map_append, List.pairwise_append]
    refine ⟨h, List.pairwise_singleton _ _, ?_⟩
    intro earlier hearlier later hlater
    obtain ⟨e, he, rfl⟩ := List.mem_map.mp hearlier
    obtain rfl := List.mem_singleton.mp hlater
    exact not_meets_of_place? hplace e he

/-- Storing all entries keeps the keys distinct. -/
theorem Distinct.storeAll {kind : KeyKind} {given stored : Entries ω} (h : Distinct stored)
    (hstored : storeAll kind stored given = .ok entries) : Distinct entries := by
  induction given generalizing stored with
  | nil =>
    cases hstored
    exact h
  | cons entry rest ih =>
    unfold Dictionary.storeAll at hstored
    split at hstored
    · exact nomatch hstored
    · exact ih h.store hstored

/-- **A dictionary that is built has distinct keys.** -/
theorem ofEntries_distinct {kind : KeyKind} {given : Entries ω}
    (h : ofEntries kind given = .ok entries) : Distinct entries := by
  have hempty : Distinct ([] : Entries ω) := List.Pairwise.nil
  exact hempty.storeAll h

end Dictionary

/-! ### Both together -/

section Proper

variable [Host ω]

/-- If the form is a dictionary, its keys are distinct, and their numbers are among certain ones. -/
def Form.ProperKeys (S : Number → Prop) (x : Form ω) : Prop :=
  ∀ entries, x = .dictionary entries →
    Dictionary.Distinct entries ∧ ∀ e ∈ entries, e.1.Over S

namespace Value

/-- All dictionaries in the value have distinct keys, over certain numbers. -/
def Keyed (S : Number → Prop) : Value ω → Prop := Everywhere fun v => v.form.ProperKeys S

variable {S : Number → Prop} {v : Value ω}

/-- A dictionary that is built has distinct keys. -/
theorem Built.distinct {entries : Dictionary.Entries ω} (h : v.Built)
    (hentries : v.entries? = some entries) : Dictionary.Distinct entries := by
  have hself := h.self
  cases v with
  | dictionary kind others =>
    obtain rfl := Option.some.inj hentries
    obtain ⟨given, hgiven⟩ := hself kind _ rfl
    exact Dictionary.ofEntries_distinct hgiven
  | _ => exact nomatch hentries

/-- The dictionaries in a built value have distinct keys, over the numbers in them. -/
theorem keyed_of_built (hbuilt : v.Built) (hkeys : v.KeysOver S) : v.Keyed S := by
  induction v using Value.induction with
  | h v ih =>
    refine ⟨fun entries hform => ?_, fun p hp => ih p hp (hbuilt.part hp) (hkeys.part hp)⟩
    have hentries := entries?_eq_some.mpr hform
    exact ⟨hbuilt.distinct hentries, hkeys.self entries hentries⟩

end Value

end Proper

end DynExpr
