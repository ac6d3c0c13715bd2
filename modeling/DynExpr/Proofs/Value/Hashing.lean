import DynExpr.Proofs.Value.Equality

/-!
# Hashes of equal values

Equal values have equal hashes, whatever the hash functions of the basic types are, if equal objects
of the host do (`Value.hash_eq_of_equal`). For dictionaries this takes more than that each key of
the one is found in the other: the hash sums over the entries of each, so the two must correspond
one to one, and `Coherent.exists_perm` says that they do.

That rests on distinct keys whose numbers do not clash. Of keys that clash, two integers can be
found under one and the same double of the other dictionary; then the dictionaries are equal and
their hashes are not (`Value.hash_ne_of_equal_roundedKey`).
-/

namespace DynExpr.Value

variable {ω : Type} [Host ω]

/-! ### Hashes of lists -/

/-- The hash of a list is made from the hashes of its elements. -/
theorem hashAll_congr {xs ys : List (Value ω)}
    (h : List.Forall₂ (fun a b => a.hash = b.hash) xs ys) (seed : UInt64) :
    hashAll seed xs = hashAll seed ys := by
  induction h generalizing seed with
  | nil => rfl
  | cons hhead _ ih => rw [hashAll, hashAll, hhead, ih]

/-- The hash of entries is made from the hashes of keys and values. -/
theorem hashEntries_congr {es fs : Dictionary.Entries ω}
    (h : List.Forall₂ (fun e f => e.1.hash = f.1.hash ∧ e.2.hash = f.2.hash) es fs) :
    hashEntries es = hashEntries fs := by
  induction h with
  | nil => rfl
  | cons hhead _ ih => rw [hashEntries, hashEntries, hhead.1, hhead.2, ih]

/-- The order of entries has no influence on their hash. -/
theorem hashEntries_perm {es fs : Dictionary.Entries ω} (h : es.Perm fs) :
    hashEntries es = hashEntries fs := by
  induction h with
  | nil => rfl
  | cons e _ ih => rw [hashEntries, hashEntries, ih]
  | swap e f rest =>
    simp only [hashEntries]
    -- the hashes of the entries are added, and sums commute
    rw [← UInt64.add_assoc, ← UInt64.add_assoc, UInt64.add_comm (mixHash _ _)]
  | trans _ _ ih ih' => exact ih.trans ih'

/-! ### Equal values -/

/-- Equal values have equal hashes if the numbers in their keys do not clash. -/
theorem hash_eq_of_keyed (hhost : Host.Lawful ω)
    (hobjects : ∀ o p : ω, objectsEqual o p → Host.hash o = Host.hash p) {S : Number → Prop}
    (hS : Number.Apart S S S) {a b : Value ω} (ha : a.Keyed S) (hb : b.Keyed S)
    (h : a.equal b) : a.hash = b.hash := by
  -- on the structure of the left value; the right one has the same form by equality
  induction a using Value.induction generalizing b with
  | h a ih =>
    have hcoherent := coherent hhost hS (ω := ω)
    have hx : a.form.KeyedIn (Keyed S) S := ⟨fun _ => ha.part, ha.self⟩
    have hy : b.form.KeyedIn (Keyed S) S := ⟨fun _ => hb.part, hb.self⟩
    have hpart : ∀ p ∈ a.form.parts, ∀ q ∈ b.form.parts, p.equal q → p.hash = q.hash :=
      fun p hp q hq => ih p hp (hx.parts p hp) (hy.parts q hq)
    rw [equal_iff_form] at h
    rw [hash_eq_form, hash_eq_form]
    -- from here on only the forms count, one case for each way they can be equal
    generalize a.form = x at *
    generalize b.form = y at *
    cases h with
    | nil => rfl
    | number h => exact hashNumber_eq h
    | text s => rfl
    | atom p => rfl
    | sequence h =>
      simp only [Form.hash, h.length_eq]
      exact hashAll_congr (forall₂_imp_of_mem h hpart) _
    | tuple h =>
      simp only [Form.hash, h.length_eq]
      exact hashAll_congr (forall₂_imp_of_mem h hpart) _
    | @dictionary entries others hlength hfound =>
      -- entries that correspond have equal hashes, and their order does not count
      obtain ⟨arranged, hperm, hmatches⟩ :=
        hcoherent.exists_perm hS hx.keysIn hy.keysIn (.dictionary hlength hfound)
      have hhashes : List.Forall₂ (fun e f => e.1.hash = f.1.hash ∧ e.2.hash = f.2.hash)
          entries arranged := by
        refine forall₂_imp_of_mem hmatches ?_
        intro e he f hf hef
        have hf := hperm.mem_iff.mp hf
        have hvalue := hcoherent.symm (hy.value hf) (hx.value he) hef.value
        exact ⟨hef.key.hash.symm,
          hpart _ (Form.value_mem_parts he) _ (Form.value_mem_parts hf) hvalue⟩
      simp only [Form.hash, hlength, hashEntries_congr hhashes, hashEntries_perm hperm]
    | object h => exact hobjects _ _ h

/-- **Hashing agrees with equality** on built values, if the numbers in their keys do not clash:
if no two different integers among them are rounded to a double that is also among them. -/
theorem hash_eq_of_equal (hhost : Host.Lawful ω)
    (hobjects : ∀ o p : ω, objectsEqual o p → Host.hash o = Host.hash p) {a b : Value ω}
    (ha : a.Built) (hb : b.Built) (hkeys : a.KeysApart b) (h : a.equal b) : a.hash = b.hash :=
  hash_eq_of_keyed hhost hobjects hkeys (keyed_of_keyHasNumber ha b).1
    (keyed_of_keyHasNumber hb a).2 h

/-- Equal objects of the sample host have equal hashes. -/
theorem hash_sampleObject (o p : SampleObject) (h : objectsEqual o p) :
    Host.hash o = Host.hash p := by
  rw [Host.lawful_sampleObject.objectsEqual_iff] at h
  rcases h with ⟨-, -, hequal⟩ | ⟨-, -, hsame⟩
  · cases o with
    | named name _ =>
      cases p with
      | named other _ =>
        have hname : name = other := beq_iff_eq.mp hequal
        exact congrArg (Host.hashText Empty) hname
      | plain _ => exact nomatch hequal
    | plain _ => exact nomatch hequal
  · exact congrArg _ (beq_iff_eq.mp hsame)

/-- The key one as a double and as an integer, with equal objects. -/
theorem hash_eq_of_equal_ones :
    doubleNumbered.equal int64Numbered ∧ doubleNumbered.hash = int64Numbered.hash := by
  have hequal : doubleNumbered.equal int64Numbered := by decide +kernel
  -- integers up to `2 ^ 53` do not clash
  have hkeys : doubleNumbered.KeysApart int64Numbered :=
    (Over.keysOver doubleNumbered_exact).keysApart Number.apart_exact
      (Over.keysOver int64Numbered_exact)
  exact ⟨hequal, hash_eq_of_equal Host.lawful_sampleObject hash_sampleObject (numbered_built rfl)
    (numbered_built rfl) hkeys hequal⟩

/-! ### Integers beyond `2 ^ 53` as keys -/

/-- Two keys of any kind are stored as they are if the second does not meet the first. -/
theorem ofEntries_pair {k l v w : Value ω} (hk : KeyKind.any.normalize? k = some k)
    (hl : KeyKind.any.normalize? l = some l) (h : ¬ l.Meets k) :
    Dictionary.ofEntries .any [(k, v), (l, w)] = .ok [(k, v), (l, w)] := by
  have hmeets : Dictionary.meets l.hash l k = false := by
    rw [Bool.eq_false_iff, ne_eq, Dictionary.meets_iff]
    exact h
  -- so the second key is not found, and its entry is added
  have hnew : Dictionary.place? [(k, v)] l = none := by
    simp [Dictionary.place?, meetingOrder, meetingOrderFrom, meetFirst, hmeets]
  have hfirst : Dictionary.store [] k v = [(k, v)] := rfl
  have hsecond : Dictionary.store [(k, v)] l w = [(k, v), (l, w)] := by
    unfold Dictionary.store
    rw [hnew]
    rfl
  simp only [Dictionary.ofEntries, Dictionary.storeAll, hk, hl, hfirst, hsecond]

/-- `2 ^ 53` and `2 ^ 53 + 1` are both found under `2 ^ 53` as a double. The dictionaries are equal,
and their hashes are not. -/
theorem hash_ne_of_equal_roundedKey :
    ∃ es fs : Dictionary.Entries Empty,
      Dictionary.ofEntries .any [(.int64 9007199254740992, .string (utf8 "x")),
        (.int64 9007199254740993, .string (utf8 "x"))] = .ok es ∧
      Dictionary.ofEntries .any [(.double ⟨0x4340000000000000⟩, .string (utf8 "x")),
        (.string (utf8 "k"), .string (utf8 "y"))] = .ok fs ∧
      (dictionary .any es).equal (dictionary .any fs) ∧
      (dictionary .any es).hash ≠ (dictionary .any fs).hash := by
  refine ⟨_, _, ofEntries_pair rfl rfl ?_, ofEntries_pair rfl rfl ?_, ?_, ?_⟩
  · rw [← Dictionary.meets_iff]
    decide +kernel
  · rw [← Dictionary.meets_iff]
    decide +kernel
  · decide +kernel
  · decide +kernel

end DynExpr.Value
