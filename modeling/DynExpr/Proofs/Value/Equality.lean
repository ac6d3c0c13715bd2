import DynExpr.CommandLine
import DynExpr.Proofs.Pointwise
import DynExpr.Proofs.Value.Keyed
import Mathlib.Data.List.Pairwise

/-!
# Equality as an equivalence relation

Equality of values is reflexive, symmetric and transitive as far as equality of numbers and of
objects is. What makes this an argument are dictionaries: they are compared by look-ups of the keys
of the one in the other, so that a comparison of two dictionaries rests on symmetry and on
transitivity for their keys at once. The two are therefore carried together, along the size of the
values (`coherent_step`, `coherent`).

Numbers are where it may fail: two integers may clash at a double (`Number.Clash`). So transitivity
is stated for values over numbers that are apart, and between the keys of one dictionary the numbers
have to be apart in any order, since a look-up goes back and forth between two of them.

* `Dictionary.entry_eq`: no two keys of a dictionary meet.
* `Coherent.find?_of_meets`: a look-up takes the one entry that the key meets.
* `Coherent.exists_perm`: of equal dictionaries, one is the other entry by entry, in another order.
* `Value.equal_equivalence` puts the three properties together, and `Value.equal_not_transitive`
  shows two integers that clash.
-/

namespace DynExpr

variable {ω : Type} [Host ω]

/-! ### Objects -/

/-- What is expected of the host: equality is an equivalence relation on the objects that support
it, and so is identity on the others. -/
structure Host.Lawful (ω : Type) [Host ω] : Prop where
  isEqual_refl : ∀ o : ω, Host.isHashable o → Host.isEqual o o
  isEqual_symm : ∀ o p : ω, Host.isHashable o → Host.isHashable p → Host.isEqual o p →
    Host.isEqual p o
  isEqual_trans : ∀ o p q : ω, Host.isHashable o → Host.isHashable p → Host.isHashable q →
    Host.isEqual o p → Host.isEqual p q → Host.isEqual o q
  isSame_refl : ∀ o : ω, Host.isHashable o = false → Host.isSame o o
  isSame_symm : ∀ o p : ω, Host.isSame o p → Host.isSame p o
  isSame_trans : ∀ o p q : ω, Host.isSame o p → Host.isSame p q → Host.isSame o q
  isHashable_of_isSame : ∀ o p : ω, Host.isSame o p → Host.isHashable o = Host.isHashable p

namespace Host.Lawful

variable {o p q : ω}

/-- Equal objects both support equality and are equal by it, or neither does and they are the
same. -/
theorem objectsEqual_iff (h : Lawful ω) : Value.objectsEqual o p ↔
    (isHashable o ∧ isHashable p ∧ isEqual o p) ∨
      (isHashable o = false ∧ isHashable p = false ∧ isSame o p) := by
  unfold Value.objectsEqual
  have hsame := h.isHashable_of_isSame o p
  -- objects of which only one supports equality are not the same
  cases ho : isHashable o <;> cases hp : isHashable p <;> simp_all

/-- An object equals itself. -/
theorem objectsEqual_refl (h : Lawful ω) (o : ω) : Value.objectsEqual o o := by
  rw [h.objectsEqual_iff]
  cases ho : isHashable o with
  | true => exact .inl ⟨rfl, rfl, h.isEqual_refl o ho⟩
  | false => exact .inr ⟨rfl, rfl, h.isSame_refl o ho⟩

/-- Equality of objects is symmetric. -/
theorem objectsEqual_symm (h : Lawful ω) (hop : Value.objectsEqual o p) :
    Value.objectsEqual p o := by
  rw [h.objectsEqual_iff] at hop ⊢
  rcases hop with ⟨ho, hp, hequal⟩ | ⟨ho, hp, hsame⟩
  · exact .inl ⟨hp, ho, h.isEqual_symm o p ho hp hequal⟩
  · exact .inr ⟨hp, ho, h.isSame_symm o p hsame⟩

/-- Equality of objects is transitive. -/
theorem objectsEqual_trans (h : Lawful ω) (hop : Value.objectsEqual o p)
    (hpq : Value.objectsEqual p q) : Value.objectsEqual o q := by
  rw [h.objectsEqual_iff] at hop hpq ⊢
  rcases hop with ⟨ho, hp, hequal⟩ | ⟨ho, hp, hsame⟩
  · rcases hpq with ⟨-, hq, hequal'⟩ | ⟨hp', -, -⟩
    · exact .inl ⟨ho, hq, h.isEqual_trans o p q ho hp hq hequal hequal'⟩
    · -- the object in the middle supports equality or does not, but not both
      exact absurd hp (by simp [hp'])
  · rcases hpq with ⟨hp', -, -⟩ | ⟨-, hq, hsame'⟩
    · exact absurd hp' (by simp [hp])
    · exact .inr ⟨ho, hq, h.isSame_trans o p q hsame hsame'⟩

end Host.Lawful

/-! ### Keys that are apart -/

/-- No two keys of a dictionary meet, if one meets the other as soon as it is met by it. -/
theorem Dictionary.entry_eq {entries : Dictionary.Entries ω} (hdistinct : Distinct entries)
    (hsymm : ∀ e ∈ entries, ∀ f ∈ entries, e.1.Meets f.1 → f.1.Meets e.1)
    {e f : Value ω × Value ω} (he : e ∈ entries) (hf : f ∈ entries) (hmeets : e.1.Meets f.1) :
    e = f := by
  -- a later key meets no earlier one by construction, and an earlier key no later one by symmetry
  have hapart : entries.Pairwise fun e f => ¬ f.1.Meets e.1 ∧ ¬ e.1.Meets f.1 := by
    refine (List.pairwise_map.mp hdistinct).imp_of_mem ?_
    intro e f he hf hnot
    exact ⟨hnot, fun hmeets => hnot (hsymm e he f hf hmeets)⟩
  by_contra hne
  have : Std.Symm fun e f : Value ω × Value ω => ¬ f.1.Meets e.1 ∧ ¬ e.1.Meets f.1 :=
    ⟨fun _ _ => And.symm⟩
  exact (hapart.forall he hf hne).2 hmeets

/-! ### Parts on which equality is known -/

/-- On the values with the property, equality is symmetric, and transitive over numbers that are
apart. Nothing is asked of the value in the middle but its numbers. -/
structure Coherent (P : Value ω → Prop) : Prop where
  symm : ∀ {a b : Value ω}, P a → P b → a.equal b → b.equal a
  trans : ∀ {A B C : Number → Prop} {a b c : Value ω}, Number.Apart A B C → a.Over A → b.Over B →
    c.Over C → P a → P c → a.equal b → b.equal c → a.equal c

/-- The keys have the property, and are distinct, over certain numbers. -/
structure Dictionary.KeysIn (P : Value ω → Prop) (S : Number → Prop)
    (entries : Dictionary.Entries ω) : Prop where
  key : ∀ e ∈ entries, P e.1
  over_key : ∀ e ∈ entries, e.1.Over S
  distinct : Dictionary.Distinct entries

/-- The parts of the form have the property, and the keys are distinct, over certain numbers. -/
structure Form.KeyedIn (P : Value ω → Prop) (S : Number → Prop) (x : Form ω) : Prop where
  parts : ∀ p ∈ x.parts, P p
  keys : x.ProperKeys S

namespace Form.KeyedIn

variable {P : Value ω → Prop} {S : Number → Prop} {entries : Dictionary.Entries ω}
  {e : Value ω × Value ω}

/-- The value of an entry has the property. -/
theorem value (h : (Form.dictionary entries).KeyedIn P S) (he : e ∈ entries) : P e.2 :=
  h.parts _ (value_mem_parts he)

/-- The keys have the property, and are distinct. -/
theorem keysIn (h : (Form.dictionary entries).KeyedIn P S) : Dictionary.KeysIn P S entries where
  key _ he := h.parts _ (key_mem_parts he)
  over_key := (h.keys entries rfl).2
  distinct := (h.keys entries rfl).1

end Form.KeyedIn

/-- An entry of a dictionary corresponds to one of another: its key meets the other one, and the
values are equal, in the direction in which they are compared. -/
structure EntryMatches (e f : Value ω × Value ω) : Prop where
  key : e.1.Meets f.1
  value : f.2.equal e.2

namespace Coherent

variable {P : Value ω → Prop} {A B C S : Number → Prop} {entries others : Dictionary.Entries ω}
  {k l m : Value ω}

/-- Meeting is symmetric on such keys. -/
theorem meets_symm (hP : Coherent P) (hk : P k) (hl : P l) (h : k.Meets l) : l.Meets k :=
  ⟨h.hash.symm, hP.symm hk hl h.equal⟩

/-- Meeting is transitive on such keys, over numbers that are apart. -/
theorem meets_trans (hP : Coherent P) (hapart : Number.Apart A B C) (hkover : k.Over A)
    (hlover : l.Over B) (hmover : m.Over C) (hk : P k) (hm : P m) (hkl : k.Meets l)
    (hlm : l.Meets m) : k.Meets m :=
  ⟨hlm.hash.trans hkl.hash,
    hP.trans hapart hkover hlover hmover hk hm hkl.equal hlm.equal⟩

/-- **A look-up takes the one entry that the key meets.** -/
theorem find?_of_meets (hP : Coherent P) (hS : Number.Apart S S S)
    (h : Dictionary.KeysIn P S entries) (hk : P k) (hkover : k.Over S)
    {e : Value ω × Value ω} (he : e ∈ entries) (hmeets : k.Meets e.1) :
    Dictionary.find? entries k = some e := by
  obtain ⟨f, hfind⟩ := Dictionary.exists_find? he hmeets
  obtain ⟨hf, hmeets'⟩ := Dictionary.of_find? hfind
  -- from the one entry back to the key, and from there to the other entry
  have hback := hP.meets_symm hk (h.key e he) hmeets
  have hef : e.1.Meets f.1 := hP.meets_trans hS (h.over_key e he) hkover (h.over_key f hf)
    (h.key e he) (h.key f hf) hback hmeets'
  have hsymm : ∀ e ∈ entries, ∀ f ∈ entries, e.1.Meets f.1 → f.1.Meets e.1 :=
    fun e he f hf => hP.meets_symm (h.key e he) (h.key f hf)
  rw [hfind, Dictionary.entry_eq h.distinct hsymm he hf hef]

/-- Dictionaries of one size are equal if each entry of the first corresponds to one of the
second. -/
theorem equal_of_matches (hP : Coherent P) (hS : Number.Apart S S S)
    (hothers : Dictionary.KeysIn P S others) (hkeys : ∀ e ∈ entries, P e.1)
    (hover : ∀ e ∈ entries, e.1.Over S) (hlength : entries.length = others.length)
    (h : ∀ e ∈ entries, ∃ f ∈ others, EntryMatches e f) :
    Form.Equal (.dictionary entries) (.dictionary others) := by
  refine .dictionary hlength fun e he => ?_
  -- a look-up takes the counterpart, since no other key is met
  obtain ⟨f, hf, hmatches⟩ := h e he
  exact ⟨f, hP.find?_of_meets hS hothers (hkeys e he) (hover e he) hf hmatches.key,
    hmatches.value⟩

/-- **Equal dictionaries** are the same entries, up to what equality does not see, in another
order. -/
theorem exists_perm (hP : Coherent P) (hS : Number.Apart S S S)
    (hentries : Dictionary.KeysIn P S entries) (hothers : Dictionary.KeysIn P S others)
    (h : Form.Equal (.dictionary entries) (.dictionary others)) :
    ∃ arranged, arranged.Perm others ∧ List.Forall₂ EntryMatches entries arranged := by
  cases h with
  | dictionary hlength hfound =>
    have hmatches : ∀ e ∈ entries, ∃ f ∈ others, EntryMatches e f := by
      intro e he
      obtain ⟨f, hfind, hvalue⟩ := hfound e he
      obtain ⟨hf, hmeets⟩ := Dictionary.of_find? hfind
      exact ⟨f, hf, hmeets, hvalue⟩
    -- the entries have counterparts of their own, and there are as many of both
    refine exists_perm_forall₂ (List.pairwise_map.mp hentries.distinct) hmatches ?_ hlength
    -- two keys that meet the same key meet each other
    intro e he e' he' f hf hef he'f
    have hfe := hP.meets_symm (hentries.key e he) (hothers.key f hf) hef.key
    exact hP.meets_trans hS (hentries.over_key e' he') (hothers.over_key f hf)
      (hentries.over_key e he) (hentries.key e' he') (hentries.key e he) he'f.key hfe

/-- Equality of forms is symmetric. -/
theorem form_symm (hhost : Host.Lawful ω) (hP : Coherent P) (hS : Number.Apart S S S)
    {x y : Form ω} (hx : x.KeyedIn P S) (hy : y.KeyedIn P S) (h : Form.Equal x y) :
    Form.Equal y x := by
  -- elements are compared one by one
  have hlists : ∀ {xs ys : List (Value ω)}, (∀ a ∈ xs, P a) → (∀ b ∈ ys, P b) →
      List.Forall₂ (fun a b => a.equal b) xs ys → List.Forall₂ (fun a b => a.equal b) ys xs := by
    intro xs ys hxs hys h
    exact forall₂_imp_of_mem h.flip fun b hb a ha hab => hP.symm (hxs a ha) (hys b hb) hab
  cases h with
  | nil => exact .nil
  | number h => exact .number ((Number.equal_comm _ _).trans h)
  | text s => exact .text s
  | atom p => exact .atom p
  | sequence h => exact .sequence (hlists hx.parts hy.parts h)
  | tuple h => exact .tuple (hlists hx.parts hy.parts h)
  | @dictionary entries others hlength hfound =>
    -- as the entries correspond one to one, each entry of the other dictionary is reached
    obtain ⟨arranged, hperm, hmatches⟩ :=
      hP.exists_perm hS hx.keysIn hy.keysIn (.dictionary hlength hfound)
    refine hP.equal_of_matches hS hx.keysIn hy.keysIn.key hy.keysIn.over_key hlength.symm
      fun f hf => ?_
    obtain ⟨e, he, hef⟩ := forall₂_exists_right hmatches.flip (hperm.mem_iff.mpr hf)
    have hkey := hP.meets_symm (hx.keysIn.key e he) (hy.keysIn.key f hf) hef.key
    exact ⟨e, he, hkey, hP.symm (hy.value hf) (hx.value he) hef.value⟩
  | object h => exact .object (hhost.objectsEqual_symm h)

/-- Equality of forms is transitive over numbers that are apart. -/
theorem form_trans (hhost : Host.Lawful ω) (hP : Coherent P) (hS : Number.Apart S S S)
    (hapart : Number.Apart A B C) {x y z : Form ω} (hxover : x.Over A) (hyover : y.Over B)
    (hzover : z.Over C) (hx : x.KeyedIn P S) (hz : z.KeyedIn P S) (hxy : Form.Equal x y)
    (hyz : Form.Equal y z) : Form.Equal x z := by
  have hlists : ∀ {xs ys zs : List (Value ω)}, (∀ a ∈ xs, P a ∧ a.Over A) →
      (∀ b ∈ ys, b.Over B) → (∀ c ∈ zs, P c ∧ c.Over C) →
      List.Forall₂ (fun a b => a.equal b) xs ys → List.Forall₂ (fun b c => b.equal c) ys zs →
      List.Forall₂ (fun a c => a.equal c) xs zs := by
    intro xs ys zs hxs hys hzs hxy hyz
    exact forall₂_trans_of_mem hxy hyz fun a ha b hb c hc hab hbc =>
      hP.trans hapart (hxs a ha).2 (hys b hb) (hzs c hc).2 (hxs a ha).1 (hzs c hc).1 hab hbc
  have hxparts := fun p hp => And.intro (hx.parts p hp) (hxover.parts p hp)
  have hzparts := fun p hp => And.intro (hz.parts p hp) (hzover.parts p hp)
  cases hxy with
  -- where a form has nothing to compare, the second equality is the one that is wanted
  | nil => exact hyz
  | number h =>
    cases hyz with
    | number h' =>
      have hnot := hapart _ _ _ (hxover.number _ rfl) (hyover.number _ rfl) (hzover.number _ rfl)
      exact .number (Number.equal_trans hnot h h')
  | text s => exact hyz
  | atom p => exact hyz
  | sequence h =>
    cases hyz with
    | sequence h' => exact .sequence (hlists hxparts hyover.parts hzparts h h')
  | tuple h =>
    cases hyz with
    | tuple h' => exact .tuple (hlists hxparts hyover.parts hzparts h h')
  | @dictionary entries _ hlength hfound =>
    cases hyz with
    | dictionary hlength' hfound' =>
      refine hP.equal_of_matches hS hz.keysIn hx.keysIn.key hx.keysIn.over_key
        (hlength.trans hlength') fun e he => ?_
      -- from an entry to its counterpart, and from there to the counterpart of that
      obtain ⟨f, hfind, hvalue⟩ := hfound e he
      obtain ⟨hf, hmeets⟩ := Dictionary.of_find? hfind
      obtain ⟨g, hfind', hvalue'⟩ := hfound' f hf
      obtain ⟨hg, hmeets'⟩ := Dictionary.of_find? hfind'
      refine ⟨g, hg, ?_, ?_⟩
      · exact hP.meets_trans hapart (hxover.parts _ (Form.key_mem_parts he))
          (hyover.parts _ (Form.key_mem_parts hf)) (hzover.parts _ (Form.key_mem_parts hg))
          (hx.keysIn.key e he) (hz.keysIn.key g hg) hmeets hmeets'
      · -- values are compared in the opposite direction, so the chain is run through backwards
        exact hP.trans hapart.symm (hzover.parts _ (Form.value_mem_parts hg))
          (hyover.parts _ (Form.value_mem_parts hf)) (hxover.parts _ (Form.value_mem_parts he))
          (hz.value hg) (hx.value he) hvalue' hvalue
  | object h =>
    cases hyz with
    | object h' => exact .object (hhost.objectsEqual_trans h h')

end Coherent

/-! ### All values -/

section All

variable {S : Number → Prop}

/-- A value with proper keys, and of a limited size. -/
structure Value.KeyedBelow (S : Number → Prop) (n : Nat) (v : Value ω) : Prop where
  keyed : v.Keyed S
  size : sizeOf v < n

/-- The parts of a value have proper keys, and are smaller. -/
theorem Value.KeyedBelow.form {n : Nat} {v : Value ω} (h : v.KeyedBelow S (n + 1)) :
    v.form.KeyedIn (KeyedBelow S n) S := by
  refine ⟨fun p hp => ⟨h.keyed.part hp, ?_⟩, h.keyed.self⟩
  exact Nat.lt_of_lt_of_le (sizeOf_lt_of_mem_parts hp) (Nat.le_of_lt_succ h.size)

/-- From the parts to values of the next size. -/
theorem coherent_step (hhost : Host.Lawful ω) (hS : Number.Apart S S S) {n : Nat}
    (h : Coherent (Value.KeyedBelow S n : Value ω → Prop)) :
    Coherent (Value.KeyedBelow S (n + 1) : Value ω → Prop) where
  symm ha hb hab := by
    rw [Value.equal_iff_form] at hab ⊢
    exact h.form_symm hhost hS ha.form hb.form hab
  trans hapart haover hbover hcover ha hc hab hbc := by
    rw [Value.equal_iff_form] at hab hbc ⊢
    exact h.form_trans hhost hS hapart haover.form hbover.form hcover.form ha.form hc.form hab hbc

/-- Equality is known on values of every size. -/
theorem coherent_below (hhost : Host.Lawful ω) (hS : Number.Apart S S S) (n : Nat) :
    Coherent (Value.KeyedBelow S n : Value ω → Prop) := by
  induction n with
  -- no value has a size below zero
  | zero =>
    exact ⟨fun ha => absurd ha.size (Nat.not_lt_zero _),
      fun _ _ _ _ ha => absurd ha.size (Nat.not_lt_zero _)⟩
  | succ n ih => exact coherent_step hhost hS ih

/-- **Equality of values with proper keys** is symmetric, and transitive over numbers that are
apart. -/
theorem coherent (hhost : Host.Lawful ω) (hS : Number.Apart S S S) :
    Coherent (Value.Keyed S : Value ω → Prop) where
  symm {a b} ha hb hab := by
    -- one bound on the sizes covers all the values of which something is asked
    have hbelow := coherent_below hhost hS (ω := ω) (sizeOf a + sizeOf b + 1)
    exact hbelow.symm ⟨ha, by omega⟩ ⟨hb, by omega⟩ hab
  trans {A B C a b c} hapart haover hbover hcover ha hc hab hbc := by
    have hbelow := coherent_below hhost hS (ω := ω) (sizeOf a + sizeOf c + 1)
    exact hbelow.trans hapart haover hbover hcover ⟨ha, by omega⟩ ⟨hc, by omega⟩ hab hbc

end All

namespace Value

/-- The dictionaries in a built value are keyed by the numbers in its keys, and by more. -/
theorem keyed_of_keyHasNumber {a : Value ω} (ha : a.Built) (b : Value ω) :
    a.Keyed (fun n => a.KeyHasNumber n ∨ b.KeyHasNumber n) ∧
      a.Keyed (fun n => b.KeyHasNumber n ∨ a.KeyHasNumber n) :=
  ⟨keyed_of_built ha ((keysOver_keyHasNumber a).mono fun _ => Or.inl),
    keyed_of_built ha ((keysOver_keyHasNumber a).mono fun _ => Or.inr)⟩

/-- Equality is symmetric between built values with keys that are apart. -/
theorem equal_symm (hhost : Host.Lawful ω) {a b : Value ω} (ha : a.Built) (hb : b.Built)
    (hkeys : a.KeysApart b) (h : a.equal b) : b.equal a :=
  (coherent hhost hkeys).symm (keyed_of_keyHasNumber ha b).1 (keyed_of_keyHasNumber hb a).2 h

/-- Built values with keys that are apart are equal through a third one, if no two integers of
theirs clash in it. -/
theorem equal_trans (hhost : Host.Lawful ω) {a b c : Value ω} (ha : a.Built) (hc : c.Built)
    (hkeys : a.KeysApart c) (hapart : Number.Apart a.HasNumber b.HasNumber c.HasNumber)
    (hab : a.equal b) (hbc : b.equal c) : a.equal c :=
  (coherent hhost hkeys).trans hapart (over_hasNumber a) (over_hasNumber b) (over_hasNumber c)
    (keyed_of_keyHasNumber ha c).1 (keyed_of_keyHasNumber hc a).2 hab hbc

/-- A built value without NaN equals itself, if its keys have keys that are apart. -/
theorem equal_self (hhost : Host.Lawful ω) {v : Value ω} (hbuilt : v.Built) (hnan : v.NaNFree)
    (hkeys : ∀ k l, v.HasKey k → v.HasKey l → k.KeysApart l) : v.equal v := by
  induction v using Value.induction with
  | h v ih =>
    -- by induction on the parts: all that is assumed of the value holds of its parts
    have hparts : ∀ p ∈ v.form.parts, p.equal p := fun p hp =>
      ih p hp (hbuilt.part hp) (hnan.part hp) fun k l hk hl => hkeys k l (.part hp hk) (.part hp hl)
    have hnumber : ∀ number, v.form = .number number → number.toDouble.isNaN = false :=
      fun number hform => hnan.self number (number?_eq_some.mpr hform)
    have hentry : ∀ entries, v.form = .dictionary entries → ∀ e ∈ entries, ∀ f ∈ entries,
        e.1.Meets f.1 → e = f := by
      intro entries hform e he f hf
      have hentries := entries?_eq_some.mpr hform
      refine Dictionary.entry_eq (hbuilt.distinct hentries) ?_ he hf
      intro e he f hf hmeets
      have hsymm := equal_symm hhost (hbuilt.part (key_mem_parts hentries he))
        (hbuilt.part (key_mem_parts hentries hf))
        (hkeys _ _ (.entry hentries he) (.entry hentries hf)) hmeets.equal
      exact ⟨hmeets.hash.symm, hsymm⟩
    rw [equal_iff_form]
    generalize v.form = x at hparts hnumber hentry
    cases x with
    | nil => exact .nil
    | number n => exact .number (Number.equal_self (hnumber n rfl))
    | text s => exact .text s
    | atom p => exact .atom p
    | sequence elements => exact .sequence (List.forall₂_same.mpr hparts)
    | tuple elements => exact .tuple (List.forall₂_same.mpr hparts)
    | dictionary entries =>
      refine .dictionary rfl fun e he => ?_
      -- the key meets itself, and so the look-up takes its own entry
      have hself : e.1.Meets e.1 := ⟨rfl, hparts _ (Form.key_mem_parts he)⟩
      obtain ⟨f, hfind⟩ := Dictionary.exists_find? he hself
      obtain ⟨hf, hmeets⟩ := Dictionary.of_find? hfind
      obtain rfl := hentry entries rfl e he f hf hmeets
      exact ⟨e, hfind, hparts _ (Form.value_mem_parts he)⟩
    | object o => exact .object (hhost.objectsEqual_refl o)

/-- **Equality is an equivalence relation** on built values, as far as no integers clash. A value
without NaN equals itself if this holds of the keys in its keys, equality is symmetric if it holds
of the keys of both values, and transitive if it holds of the keys of the outer values, and of the
integers of these with the doubles of the value in the middle.

In particular, integers do not clash if those on both sides do not exceed `2 ^ 53`
(`Number.apart_of_exact`), or if there is no double of magnitude `2 ^ 53` or more between them
(`Number.apart_of_small`). -/
theorem equal_equivalence (hhost : Host.Lawful ω) :
    (∀ a : Value ω, a.Built → a.NaNFree →
      (∀ k l, a.HasKey k → a.HasKey l → k.KeysApart l) → a.equal a) ∧
    (∀ a b : Value ω, a.Built → b.Built → a.KeysApart b → a.equal b → b.equal a) ∧
    ∀ a b c : Value ω, a.Built → c.Built → a.KeysApart c →
      Number.Apart a.HasNumber b.HasNumber c.HasNumber → a.equal b → b.equal c → a.equal c :=
  ⟨fun _ ha hnan hkeys => equal_self hhost ha hnan hkeys,
    fun _ _ ha hb hkeys hab => equal_symm hhost ha hb hkeys hab,
    fun _ _ _ ha hc hkeys hapart hab hbc => equal_trans hhost ha hc hkeys hapart hab hbc⟩

end Value

/-! ### A host and its dictionaries -/

/-- Objects of a host: those with a name are equal if their names are, and all others are only equal
to themselves. -/
inductive SampleObject
  | named (name : Text) (copy : Nat)
  | plain (copy : Nat)
deriving DecidableEq

instance : Host SampleObject where
  typeName _ := utf8 "SampleObject"
  describe
    | .named name _ => name
    | .plain _ => utf8 "plain"
  isHashable
    | .named _ _ => true
    | .plain _ => false
  isEqual
    | .named name _, .named other _ => name == other
    | _, _ => false
  isSame o p := o == p
  hash
    | .named name _ => Host.hashText Empty name
    | .plain copy => copy.toUInt64
  hashDouble := Host.hashDouble Empty
  hashText := Host.hashText Empty
  hashBool := Host.hashBool Empty
  hashInteger := Host.hashInteger Empty
  hashIndex := Host.hashIndex Empty

/-- Names are equal as texts, and all other objects are compared by identity. -/
theorem Host.lawful_sampleObject : Host.Lawful SampleObject where
  isEqual_refl o h := by
    cases o with
    | named name _ => exact beq_self_eq_true name
    | plain _ => exact nomatch h
  isEqual_symm o p _ _ h := by
    cases o <;> cases p <;> simp_all [Host.isEqual]
  isEqual_trans o p q _ _ _ h h' := by
    cases o <;> cases p <;> cases q <;> simp_all [Host.isEqual]
  isSame_refl o _ := beq_self_eq_true o
  isSame_symm _ _ h := beq_iff_eq.mpr (beq_iff_eq.mp h).symm
  isSame_trans _ _ _ h h' := beq_iff_eq.mpr ((beq_iff_eq.mp h).trans (beq_iff_eq.mp h'))
  isHashable_of_isSame _ _ h := congrArg _ (beq_iff_eq.mp h)

namespace Value

/-- A dictionary that gives an object a number as its key. -/
def numbered (key : Value SampleObject) (o : SampleObject) : Value SampleObject :=
  .dictionary .any [(key, .object o)]

section Numbered

variable {key : Value SampleObject} {number : Number} {o : SampleObject}

/-- What holds of the dictionary, of its key and of its object holds everywhere in it. -/
theorem numbered_everywhere {P : Value SampleObject → Prop} (hnumber : key.number? = some number)
    (hself : P (numbered key o)) (hkey : P key) (hobject : P (.object o)) :
    Everywhere P (numbered key o) := by
  have hparts : key.parts = [] := by
    unfold parts
    rw [number?_eq_some.mp hnumber]
    rfl
  refine ⟨hself, fun p hp => ?_⟩
  rcases List.mem_pair.mp (show p ∈ [key, .object o] from hp) with rfl | rfl
  · exact .of_parts_eq_nil hparts hkey
  · exact .of_parts_eq_nil rfl hobject

/-- The dictionary is built: the key is stored as it is. -/
theorem numbered_built (hnumber : key.number? = some number) : (numbered key o).Built := by
  -- the dictionary is made of its one entry; neither the key nor the object is a dictionary
  refine numbered_everywhere hnumber ?_ ?_ ?_
  · rintro kind entries ⟨⟩
    refine ⟨[(key, .object o)], ?_⟩
    cases key with
    | double _ | int64 _ | uint64 _ => rfl
    | _ => exact nomatch hnumber
  · rintro kind entries rfl
    exact nomatch hnumber
  · exact fun _ _ h => nomatch h

/-- The only number in the dictionary is its key. -/
theorem numbered_over {S : Number → Prop} (hnumber : key.number? = some number)
    (hS : S number) : (numbered key o).Over S := by
  refine numbered_everywhere hnumber (fun _ h => nomatch h) ?_ (fun _ h => nomatch h)
  intro other hother
  obtain rfl := Option.some.inj (hnumber.symm.trans hother)
  exact hS

end Numbered

/-- The key one as a double. -/
def doubleNumbered : Value SampleObject := numbered (.double .one) (.named (utf8 "a") 0)

/-- The key one as an integer, with an equal object. -/
def int64Numbered : Value SampleObject := numbered (.int64 1) (.named (utf8 "a") 1)

/-- A double is exact. -/
theorem doubleNumbered_exact : doubleNumbered.Exact := numbered_over rfl nofun

/-- The number one is exact. -/
theorem int64Numbered_exact : int64Numbered.Exact :=
  numbered_over rfl fun n h => Option.some.inj h ▸ by decide

/-- The key `2 ^ 53 + 1`, which no double is, as a signed integer. -/
def signedNumbered (copy : Nat) : Value SampleObject :=
  numbered (.int64 9007199254740993) (.named (utf8 "a") copy)

/-- The key `2 ^ 53 + 1` as an unsigned integer. -/
def unsignedNumbered : Value SampleObject :=
  numbered (.uint64 9007199254740993) (.named (utf8 "a") 2)

/-- There is no double among the numbers, so all of them are small. -/
theorem signedNumbered_small (copy : Nat) : (signedNumbered copy).Over Number.Small :=
  numbered_over rfl nofun

/-- There is no double here either. -/
theorem unsignedNumbered_small : unsignedNumbered.Over Number.Small := numbered_over rfl nofun

/-- Three equal dictionaries with the key `2 ^ 53 + 1`, once unsigned and twice signed. -/
theorem equal_equivalence_large :
    unsignedNumbered.equal unsignedNumbered ∧ unsignedNumbered.equal (signedNumbered 0) ∧
      (signedNumbered 0).equal (signedNumbered 1) := by
  obtain ⟨hrefl, hsymm, htrans⟩ := equal_equivalence Host.lawful_sampleObject
  -- there is no double at which the keys could clash
  have hsmall : Number.Apart Number.Small Number.Small Number.Small :=
    Number.apart_of_small fun _ => id
  have hsigned := fun copy => (signedNumbered_small copy).keysOver
  have hunsigned := unsignedNumbered_small.keysOver
  -- each law at the same keys, with the equalities that it assumes computed
  refine ⟨?_, ?_, ?_⟩
  · exact hrefl _ (numbered_built rfl) (numbered_over rfl (Double.isNaN_ofInt _)) fun k l hk hl =>
      (hunsigned.key hk).keysOver.keysApart hsmall (hunsigned.key hl).keysOver
  · exact hsymm _ _ (numbered_built rfl) (numbered_built rfl)
      ((hsigned 0).keysApart hsmall hunsigned) (by decide +kernel)
  · exact htrans _ unsignedNumbered _ (numbered_built rfl) (numbered_built rfl)
      ((hsigned 0).keysApart hsmall (hsigned 1))
      (Number.apart_of_small fun _ => unsignedNumbered_small.of_hasNumber) (by decide +kernel)
      (by decide +kernel)

/-- As a double, `2 ^ 53` equals the integers `2 ^ 53` and `2 ^ 53 + 1`, which differ. -/
theorem equal_not_transitive :
    (int64 9007199254740993 : Value Empty).equal (double ⟨0x4340000000000000⟩) ∧
    (double ⟨0x4340000000000000⟩ : Value Empty).equal (int64 9007199254740992) ∧
    ¬ (int64 9007199254740993 : Value Empty).equal (int64 9007199254740992) := by
  decide +kernel

end Value

end DynExpr
