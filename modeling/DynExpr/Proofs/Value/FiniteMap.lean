import DynExpr.Proofs.Value.Hashing

/-!
# Dictionaries as finite maps

A dictionary is built by storing entries one after the other. `Dictionary.store_cases` says all that
one step can do: it overwrites the value of the key in place, or it adds an entry behind all others.
What a look-up gives after one step follows from that (`lookup_store_of_meets`,
`lookup_store_of_not_meets`), and what it gives after all of them by induction
(`lookup_storeAll`); likewise for the keys (`keys_storeAll`).

`Dictionary.ofEntries_isMapOf` puts this together: a dictionary is built unless a key is rejected,
and then it is the finite map of its entries, `Dictionary.IsMapOf`. As in all that rests on equality
of keys, these are built, without NaN and without integers beyond `2 ^ 53` (`Value.Proper`).
-/

namespace DynExpr

variable {ω : Type} [Host ω]

/-! ### Normalized keys -/

/-- A value that was built, without NaN and without integers beyond `2 ^ 53`, at any depth. -/
structure Value.Proper (v : Value ω) : Prop where
  built : v.Built
  exact : v.Exact
  nanFree : v.NaNFree

namespace Value

variable {v : Value ω}

/-- The dictionaries in a proper value have distinct keys, over exact numbers. -/
theorem Proper.keyed (h : v.Proper) : v.Keyed Number.Exact :=
  keyed_of_built h.built (Over.keysOver h.exact)

/-- A proper value equals itself. -/
theorem Proper.equal_self (hhost : Host.Lawful ω) (h : v.Proper) : v.equal v := by
  refine Value.equal_self hhost h.built h.nanFree fun k l hk hl => ?_
  -- the keys in the keys are exact as well
  have hkeys : ∀ key, v.HasKey key → key.KeysOver Number.Exact :=
    fun _ hkey => ((Over.keysOver h.exact).key hkey).keysOver
  exact (hkeys k hk).keysApart Number.apart_exact (hkeys l hl)

/-- A value without parts is proper if it is no dictionary and its number is proper. -/
theorem proper_of_parts_eq_nil (hparts : v.parts = []) (hentries : v.entries? = none)
    (hnumber : ∀ number, v.number? = some number →
      number.Exact ∧ number.toDouble.isNaN = false) : v.Proper where
  built := by
    refine .of_parts_eq_nil hparts ?_
    rintro kind entries rfl
    exact nomatch hentries
  exact := .of_parts_eq_nil hparts fun number h => (hnumber number h).1
  nanFree := .of_parts_eq_nil hparts fun number h => (hnumber number h).2

end Value

namespace KeyKind

variable {kind : KeyKind} {key sought : Value ω}

/-- A normalized key is the double of a number, a string, a truth value, or the key itself. -/
theorem normalize?_cases (h : kind.normalize? key = some sought) :
    (kind = .number ∧ ∃ number, key.number? = some number ∧ sought = .double number.toDouble) ∨
      (kind = .string ∧ ∃ text, sought = .string text) ∨
      (kind = .boolean ∧ ∃ flag, sought = .bool flag) ∨ (kind = .any ∧ sought = key) := by
  -- each kind accepts keys of its own and gives them one form
  cases kind with
  | number =>
    obtain ⟨number, hnumber, rfl⟩ := Option.map_eq_some_iff.mp h
    exact .inl ⟨rfl, number, hnumber, rfl⟩
  | string =>
    unfold normalize? at h
    dsimp only at h
    split at h
    · cases h
      exact .inr (.inl ⟨rfl, _, rfl⟩)
    · obtain ⟨text, -, rfl⟩ := Option.map_eq_some_iff.mp h
      exact .inr (.inl ⟨rfl, text, rfl⟩)
  | boolean =>
    unfold normalize? at h
    dsimp only at h
    split at h
    · cases h
      exact .inr (.inr (.inl ⟨rfl, _, rfl⟩))
    · exact nomatch h
  | any =>
    obtain ⟨-, hkey⟩ := Option.ite_none_left_eq_some.mp h
    exact .inr (.inr (.inr ⟨rfl, (Option.some.inj hkey).symm⟩))

/-- **Normalizing a key once more changes nothing.** -/
theorem normalize?_normalized (h : kind.normalize? key = some sought) :
    kind.normalize? sought = some sought := by
  rcases normalize?_cases h with
    ⟨rfl, number, -, rfl⟩ | ⟨rfl, text, rfl⟩ | ⟨rfl, flag, rfl⟩ | ⟨rfl, rfl⟩
  · rfl
  · rfl
  · rfl
  · exact h

/-- Normalizing keeps a key proper. -/
theorem proper_of_normalize? (hkey : key.Proper) (h : kind.normalize? key = some sought) :
    sought.Proper := by
  rcases normalize?_cases h with
    ⟨-, number, hnumber, rfl⟩ | ⟨-, text, rfl⟩ | ⟨-, flag, rfl⟩ | ⟨-, rfl⟩
  · -- a number is stored as a double, which is exact, and no NaN because the key is none
    refine Value.proper_of_parts_eq_nil rfl rfl ?_
    rintro _ ⟨⟩
    exact ⟨nofun, hkey.nanFree.self number hnumber⟩
  · exact Value.proper_of_parts_eq_nil rfl rfl nofun
  · exact Value.proper_of_parts_eq_nil rfl rfl nofun
  · exact hkey

/-- A proper key in the form that the kind stores. -/
structure Stores (kind : KeyKind) (key : Value ω) : Prop where
  proper : key.Proper
  normalized : kind.normalize? key = some key

/-- A normalized key is in the form that the kind stores. -/
theorem stores_of_normalize? (hkey : key.Proper) (h : kind.normalize? key = some sought) :
    kind.Stores sought :=
  ⟨proper_of_normalize? hkey h, normalize?_normalized h⟩

end KeyKind

/-! ### Storing one entry -/

namespace Dictionary

variable {entries : Entries ω} {key value sought : Value ω} {e : Value ω × Value ω}

/-- The key that stands at the place is met. -/
theorem of_place? {place : Nat} (h : place? entries key = some place) :
    ∃ hplace : place < entries.length, key.Meets entries[place].1 := by
  obtain ⟨⟨e, i⟩, hfind, rfl⟩ := Option.map_eq_some_iff.mp h
  have hmem := (mem_meetingOrder _ _).mp (List.mem_of_find?_eq_some hfind)
  have hmeets := List.find?_some hfind
  -- the entries are numbered from zero, so that the number is the place
  obtain ⟨hplace, rfl⟩ := List.getElem?_eq_some_iff.mp (List.mk_mem_zipIdx_iff_getElem?.mp hmem)
  exact ⟨hplace, meets_iff.mp hmeets⟩

/-- **All that storing an entry can do**: overwrite the value under a key that is met, or add the
entry if none is. -/
theorem store_cases (entries : Entries ω) (key value : Value ω) :
    (∃ before stored old after, key.Meets stored ∧ entries = before ++ (stored, old) :: after ∧
        store entries key value = before ++ (stored, value) :: after) ∨
      ((∀ e ∈ entries, ¬ key.Meets e.1) ∧
        store entries key value = entries ++ [(key, value)]) := by
  unfold store
  cases hplace : place? entries key with
  | some place =>
    obtain ⟨hlength, hmeets⟩ := of_place? hplace
    -- the entries in front of the place and behind it stay
    refine .inl ⟨entries.take place, entries[place].1, entries[place].2, entries.drop (place + 1),
      hmeets, ?_, List.modify_eq_take_cons_drop hlength⟩
    rw [← List.drop_eq_getElem_cons hlength, List.take_append_drop]
  | none => exact .inr ⟨not_meets_of_place? hplace, rfl⟩

/-- The value is stored under a key that is met. -/
theorem exists_mem_store (hself : key.Meets key) :
    ∃ stored, key.Meets stored ∧ (stored, value) ∈ store entries key value := by
  rcases store_cases entries key value with ⟨before, stored, old, after, hmeets, -, hstore⟩ |
    ⟨-, hstore⟩
  · exact ⟨stored, hmeets, by simp [hstore]⟩
  · exact ⟨key, hself, by simp [hstore]⟩

/-- The other entries stay. -/
theorem mem_store_of_not_meets (he : e ∈ entries) (h : ¬ key.Meets e.1) :
    e ∈ store entries key value := by
  rcases store_cases entries key value with ⟨before, stored, old, after, hmeets, rfl, hstore⟩ |
    ⟨-, hstore⟩
  · rw [hstore]
    rcases List.mem_append.mp he with hbefore | hrest
    · exact List.mem_append_left _ hbefore
    · rcases List.mem_cons.mp hrest with rfl | hafter
      · exact absurd hmeets h
      · exact List.mem_append_right _ (List.mem_cons_of_mem _ hafter)
  · rw [hstore]
    exact List.mem_append_left _ he

/-- Every key is the one that was stored, or was there before. -/
theorem key_of_mem_store (h : e ∈ store entries key value) :
    e.1 = key ∨ ∃ f ∈ entries, f.1 = e.1 := by
  rcases store_cases entries key value with ⟨before, stored, old, after, -, rfl, hstore⟩ |
    ⟨-, hstore⟩
  · rw [hstore] at h
    -- no key is new, not even that of the changed entry
    refine .inr ?_
    rcases List.mem_append.mp h with hbefore | hrest
    · exact ⟨e, List.mem_append_left _ hbefore, rfl⟩
    · rcases List.mem_cons.mp hrest with rfl | hafter
      · exact ⟨(stored, old), by simp, rfl⟩
      · exact ⟨e, List.mem_append_right _ (List.mem_cons_of_mem _ hafter), rfl⟩
  · rw [hstore] at h
    rcases List.mem_append.mp h with hold | hnew
    · exact .inr ⟨e, hold, rfl⟩
    · obtain rfl := List.mem_singleton.mp hnew
      exact .inl rfl

/-- Storing under a key that is met changes no keys. -/
theorem map_fst_store_of_meets (he : e ∈ entries) (h : key.Meets e.1) :
    (store entries key value).map (·.1) = entries.map (·.1) := by
  rcases store_cases entries key value with ⟨before, stored, old, after, -, rfl, hstore⟩ |
    ⟨hnone, -⟩
  · rw [hstore]
    simp only [List.map_append, List.map_cons]
  · exact absurd h (hnone e he)

/-- Storing under a new key adds it behind the others. -/
theorem map_fst_store_of_not_meets (h : ∀ e ∈ entries, ¬ key.Meets e.1) :
    (store entries key value).map (·.1) = entries.map (·.1) ++ [key] := by
  rcases store_cases entries key value with ⟨before, stored, old, after, hmeets, rfl, -⟩ |
    ⟨-, hstore⟩
  · exact absurd hmeets (h (stored, old) (by simp))
  · rw [hstore, List.map_append]
    rfl

/-- Storing keeps what is known of the keys. -/
theorem KeysIn.store {P : Value ω → Prop} {S : Number → Prop} (h : KeysIn P S entries)
    (hkey : P key) (hover : key.Over S) : KeysIn P S (store entries key value) where
  key e he := by
    rcases key_of_mem_store he with hnew | ⟨f, hf, hold⟩
    · exact hnew ▸ hkey
    · exact hold ▸ h.key f hf
  over_key e he := by
    rcases key_of_mem_store he with hnew | ⟨f, hf, hold⟩
    · exact hnew ▸ hover
    · exact hold ▸ h.over_key f hf
  distinct := h.distinct.store

/-! ### Looking a key up -/

/-- A look-up gives the value of the entry that it takes, or nil. -/
theorem lookup_eq (entries : Entries ω) (key : Value ω) :
    lookup entries key = ((find? entries key).map (·.2)).getD .nil := by
  unfold lookup find?
  dsimp only
  cases (meetingOrder entries).find? fun entry => meets key.hash key entry.1 <;> rfl

/-- A look-up gives nil if no key is met. -/
theorem lookup_eq_nil (h : ∀ e ∈ entries, ¬ key.Meets e.1) : lookup entries key = .nil := by
  have hnone : find? entries key = none := by
    rw [Option.eq_none_iff_forall_ne_some]
    intro e hfind
    obtain ⟨he, hmeets⟩ := of_find? hfind
    exact h e he hmeets
  rw [lookup_eq, hnone]
  rfl

section Lookup

variable {P : Value ω → Prop} {S : Number → Prop}

/-- A look-up gives the value under the one key that is met. -/
theorem lookup_of_meets (hP : Coherent P) (hS : Number.Apart S S S) (h : KeysIn P S entries)
    (hkey : P key) (hover : key.Over S) (he : e ∈ entries) (hmeets : key.Meets e.1) :
    lookup entries key = e.2 := by
  rw [lookup_eq, hP.find?_of_meets hS h hkey hover he hmeets]
  rfl

variable (hP : Coherent P) (hS : Number.Apart S S S) (h : KeysIn P S entries) (hkey : P key)
  (hover : key.Over S) (hsought : P sought) (hsoughtOver : sought.Over S)

include hP hS h hkey hover hsought hsoughtOver

/-- Under the key that was stored, a look-up gives the new value. -/
theorem lookup_store_of_meets (hself : key.Meets key) (hmeets : sought.Meets key) :
    lookup (store entries key value) sought = value := by
  have hstore : KeysIn P S (store entries key value) := h.store hkey hover
  -- the sought key meets the key that the value is stored under, by way of the given one
  obtain ⟨stored, hstored, hmem⟩ := @exists_mem_store ω _ entries key value hself
  have hmet : sought.Meets stored := hP.meets_trans hS hsoughtOver hover
    (hstore.over_key _ hmem) hsought (hstore.key _ hmem) hmeets hstored
  exact lookup_of_meets hP hS hstore hsought hsoughtOver hmem hmet

/-- Under any other key, a look-up gives what it gave before. -/
theorem lookup_store_of_not_meets (hmeets : ¬ sought.Meets key) :
    lookup (store entries key value) sought = lookup entries sought := by
  have hstore : KeysIn P S (store entries key value) := h.store hkey hover
  by_cases hfound : ∃ e ∈ entries, sought.Meets e.1
  · -- the entry that is met is not the one that was overwritten, or the two keys would meet
    obtain ⟨e, he, hmet⟩ := hfound
    have hother : ¬ key.Meets e.1 := by
      intro hkeyMet
      have hback := hP.meets_symm hkey (h.key e he) hkeyMet
      exact hmeets (hP.meets_trans hS hsoughtOver (h.over_key e he) hover hsought hkey hmet hback)
    rw [lookup_of_meets hP hS h hsought hsoughtOver he hmet,
      lookup_of_meets hP hS hstore hsought hsoughtOver (mem_store_of_not_meets he hother) hmet]
  · have hnone : ∀ e ∈ entries, ¬ sought.Meets e.1 := fun e he hmet => hfound ⟨e, he, hmet⟩
    -- nothing was met before, and no key is new but the stored one
    rw [lookup_eq_nil hnone, lookup_eq_nil]
    intro e he hmet
    rcases key_of_mem_store he with hnew | ⟨f, hf, hold⟩
    · exact hmeets (hnew ▸ hmet)
    · exact hnone f hf (hold ▸ hmet)

end Lookup

/-! ### Storing all entries -/

/-- The keys of the entries in the form that the kind stores. -/
def normalizedKeys (kind : KeyKind) (given : Entries ω) : List (Value ω) :=
  given.filterMap fun e => kind.normalize? e.1

/-- The last value that is given under a key. -/
def lastValue? (kind : KeyKind) (given : Entries ω) (sought : Value ω) : Option (Value ω) :=
  (given.filter fun e => (kind.normalize? e.1).any (·.equal sought)).getLast?.map (·.2)

/-- An entry under the sought key counts unless a later one does. -/
theorem lastValue?_cons_of_equal {kind : KeyKind} {given : Entries ω} {normalized : Value ω}
    (hkey : kind.normalize? key = some normalized) (h : normalized.equal sought) :
    lastValue? kind ((key, value) :: given) sought =
      some ((lastValue? kind given sought).getD value) := by
  unfold lastValue?
  rw [List.filter_cons_of_pos (by rw [hkey]; exact h), List.getLast?_cons]
  cases (given.filter fun e => (kind.normalize? e.1).any (·.equal sought)).getLast? <;> rfl

/-- An entry under another key does not count. -/
theorem lastValue?_cons_of_not_equal {kind : KeyKind} {given : Entries ω} {normalized : Value ω}
    (hkey : kind.normalize? key = some normalized) (h : ¬ normalized.equal sought) :
    lastValue? kind ((key, value) :: given) sought = lastValue? kind given sought := by
  unfold lastValue?
  rw [List.filter_cons_of_neg (by rw [hkey]; exact h)]

section Run

variable {kind : KeyKind} {given stored : Entries ω}

/-- If entries are stored, the first key is normalized, and the others are stored behind it. -/
theorem storeAll_cons_eq_ok (h : storeAll kind stored ((key, value) :: given) = .ok entries) :
    ∃ normalized, kind.normalize? key = some normalized ∧
      storeAll kind (store stored normalized value) given = .ok entries := by
  unfold storeAll at h
  split at h
  · exact nomatch h
  next normalized hkey => exact ⟨normalized, hkey, h⟩

/-- Entries are stored unless a key is rejected, and then the first such key is the error. -/
theorem storeAll_eq_error (kind : KeyKind) (stored given : Entries ω) :
    (∃ bad, storeAll kind stored given = .error bad) ↔ ∃ e ∈ given, kind.normalize? e.1 = none := by
  -- what was stored before has no influence on which keys are rejected
  induction given generalizing stored with
  | nil => simp [storeAll]
  | cons entry rest ih =>
    obtain ⟨key, value⟩ := entry
    rw [List.exists_mem_cons_iff, storeAll]
    cases hkey : kind.normalize? key with
    | none => simp
    | some normalized => simp [ih]

/-- All stored keys are proper, normalized and distinct. -/
theorem keysIn_storeAll (hstored : KeysIn kind.Stores Number.Exact stored)
    (hgiven : ∀ e ∈ given, e.1.Proper)
    (h : storeAll kind stored given = .ok entries) : KeysIn kind.Stores Number.Exact entries := by
  induction given generalizing stored with
  | nil =>
    cases h
    exact hstored
  | cons entry rest ih =>
    obtain ⟨key, value⟩ := entry
    rw [List.forall_mem_cons] at hgiven
    obtain ⟨normalized, hkey, hrest⟩ := storeAll_cons_eq_ok h
    -- each key is proper and normalized when it is stored, and storing keeps what is known of the
    -- others
    have hstores := KeyKind.stores_of_normalize? hgiven.1 hkey
    exact ih (hstored.store hstores hstores.proper.exact) hgiven.2 hrest

variable (hhost : Host.Lawful ω)
  (hobjects : ∀ o p : ω, Value.objectsEqual o p → Host.hash o = Host.hash p)

include hhost in
/-- Equality is an equivalence relation on keys as they are stored. -/
theorem coherent_stores (kind : KeyKind) : Coherent (kind.Stores : Value ω → Prop) where
  symm ha hb := (coherent hhost Number.apart_exact).symm ha.proper.keyed hb.proper.keyed
  trans hapart haover hbover hcover ha hc := (coherent hhost Number.apart_exact).trans hapart
    haover hbover hcover ha.proper.keyed hc.proper.keyed

include hhost hobjects

/-- Keys that are equal meet, for their hashes are equal too. -/
theorem meets_iff_equal {k l : Value ω} (hk : k.Proper) (hl : l.Proper) :
    k.Meets l ↔ k.equal l := by
  -- the hashes are compared first, but equal keys pass this comparison
  refine ⟨Value.Meets.equal, fun h => ⟨?_, h⟩⟩
  exact (Value.hash_eq_of_keyed hhost hobjects Number.apart_exact hk.keyed hl.keyed h).symm

/-- **What a look-up gives after all entries were stored**: the last value that was given under the
key, or what it gave before. -/
theorem lookup_storeAll (hstored : KeysIn kind.Stores Number.Exact stored)
    (hgiven : ∀ e ∈ given, e.1.Proper)
    (h : storeAll kind stored given = .ok entries) (hsought : kind.Stores sought) :
    lookup entries sought = (lastValue? kind given sought).getD (lookup stored sought) := by
  induction given generalizing stored with
  | nil =>
    cases h
    rfl
  | cons entry rest ih =>
    obtain ⟨key, value⟩ := entry
    rw [List.forall_mem_cons] at hgiven
    obtain ⟨normalized, hkey, hrest⟩ := storeAll_cons_eq_ok h
    have hstores := KeyKind.stores_of_normalize? hgiven.1 hkey
    have hcoherent := coherent_stores hhost kind
    have hexact := hstores.proper.exact
    rw [ih (hstored.store hstores hexact) hgiven.2 hrest]
    -- whatever is given later counts first; then this entry, if it is under the sought key
    by_cases hequal : normalized.equal sought
    · have hself := (meets_iff_equal hhost hobjects hstores.proper hstores.proper).mpr
        (hstores.proper.equal_self hhost)
      have hmeets := (meets_iff_equal hhost hobjects hsought.proper hstores.proper).mpr
        (hcoherent.symm hstores hsought hequal)
      rw [lastValue?_cons_of_equal hkey hequal, Option.getD_some,
        lookup_store_of_meets hcoherent Number.apart_exact hstored hstores hexact hsought
          hsought.proper.exact hself hmeets]
    · have hmeets : ¬ sought.Meets normalized := fun hmeets =>
        hequal (hcoherent.symm hsought hstores hmeets.equal)
      rw [lastValue?_cons_of_not_equal hkey hequal, lookup_store_of_not_meets hcoherent
        Number.apart_exact hstored hstores hexact hsought hsought.proper.exact hmeets]

/-- **The keys after all entries were stored**: those of before, and the new ones in the order in
which they came first. -/
theorem keys_storeAll (hstored : KeysIn kind.Stores Number.Exact stored)
    (hgiven : ∀ e ∈ given, e.1.Proper)
    (h : storeAll kind stored given = .ok entries) :
    entries.map (·.1) = stored.map (·.1) ++
      ((normalizedKeys kind given).filter fun key =>
        !(stored.map (·.1)).any key.equal).eraseDupsBy Value.equal := by
  induction given generalizing stored with
  | nil =>
    cases h
    exact (List.append_nil _).symm
  | cons entry rest ih =>
    obtain ⟨key, value⟩ := entry
    rw [List.forall_mem_cons] at hgiven
    obtain ⟨normalized, hkey, hrest⟩ := storeAll_cons_eq_ok h
    have hstores := KeyKind.stores_of_normalize? hgiven.1 hkey
    have hcons : normalizedKeys kind ((key, value) :: rest) =
        normalized :: normalizedKeys kind rest := List.filterMap_cons_some hkey
    rw [ih (hstored.store hstores hstores.proper.exact) hgiven.2 hrest, hcons]
    by_cases hfound : ∃ e ∈ stored, normalized.Meets e.1
    · -- the key is there already
      obtain ⟨e, he, hmeets⟩ := hfound
      have hany : (stored.map (·.1)).any normalized.equal :=
        List.any_eq_true.mpr ⟨e.1, List.mem_map_of_mem he, hmeets.equal⟩
      -- it changes no keys, and is not among the new ones
      rw [map_fst_store_of_meets he hmeets, List.filter_cons_of_neg (by simp [hany])]
    · have hnone : ∀ e ∈ stored, ¬ normalized.Meets e.1 := fun e he hmeets => hfound ⟨e, he, hmeets⟩
      have hnew : (stored.map (·.1)).any normalized.equal = false := by
        rw [List.any_eq_false]
        intro k hk hequal
        obtain ⟨e, he, rfl⟩ := List.mem_map.mp hk
        exact hnone e he
          ((meets_iff_equal hhost hobjects hstores.proper (hstored.key e he).proper).mpr hequal)
      -- a later key is new if it equals neither this one nor one that was there before
      have hlater : (fun key : Value ω => !(stored.map (·.1) ++ [normalized]).any key.equal) =
          fun key => decide (key.equal normalized = false) &&
            !(stored.map (·.1)).any key.equal := by
        funext key
        rw [List.any_append, Bool.not_or, Bool.and_comm]
        simp
      rw [map_fst_store_of_not_meets hnone, List.filter_cons_of_pos (by simp [hnew]),
        List.eraseDupsBy_cons, List.filter_filter, hlater, List.append_assoc,
        List.singleton_append]

end Run

/-! ### The finite map of a list of entries -/

/-- The entries are those of the finite map that a list gives. The keys are normalized and pairwise
different, each stands where it came first, and the value of a key is the one that came last. -/
structure IsMapOf (kind : KeyKind) (given entries : Entries ω) : Prop where
  normalized : ∀ e ∈ entries, kind.normalize? e.1 = some e.1
  different : entries.Pairwise fun e f => ¬ e.1.equal f.1 ∧ ¬ f.1.equal e.1
  keys : entries.map (·.1) = (normalizedKeys kind given).eraseDupsBy Value.equal
  size : entries.length = ((normalizedKeys kind given).eraseDupsBy Value.equal).length
  lookup : ∀ key sought : Value ω, key.Proper → kind.normalize? key = some sought →
    lookup entries sought = (lastValue? kind given sought).getD .nil

section Map

variable {kind : KeyKind} {given : Entries ω} (hhost : Host.Lawful ω)
  (hobjects : ∀ o p : ω, Value.objectsEqual o p → Host.hash o = Host.hash p)

include hhost hobjects

/-- What is built is the finite map of the given entries. -/
theorem isMapOf_of_ofEntries (hgiven : ∀ e ∈ given, e.1.Proper)
    (h : ofEntries kind given = .ok entries) : IsMapOf kind given entries := by
  have hempty : KeysIn kind.Stores Number.Exact ([] : Entries ω) :=
    ⟨nofun, nofun, List.Pairwise.nil⟩
  have hentries := keysIn_storeAll hempty hgiven h
  have hkeys : entries.map (·.1) = (normalizedKeys kind given).eraseDupsBy Value.equal := by
    have hrun := keys_storeAll hhost hobjects hempty hgiven h
    simpa using hrun
  refine ⟨fun e he => (hentries.key e he).normalized, ?_, hkeys, ?_, ?_⟩
  · -- keys do not meet later ones by construction, nor earlier ones by symmetry
    have hcoherent := coherent_stores hhost kind
    refine (List.pairwise_map.mp hentries.distinct).imp_of_mem ?_
    intro e f he hf hnot
    have hproper := fun e he => (hentries.key e he).proper
    have hlater : ¬ f.1.equal e.1 :=
      mt (meets_iff_equal hhost hobjects (hproper f hf) (hproper e he)).mpr hnot
    exact ⟨fun hequal => hlater (hcoherent.symm (hentries.key e he) (hentries.key f hf) hequal),
      hlater⟩
  · rw [← hkeys, List.length_map]
  · intro key sought hkey hsought
    exact lookup_storeAll hhost hobjects hempty hgiven h
      (KeyKind.stores_of_normalize? hkey hsought)

/-- **A dictionary is the finite map of its entries.** It is built unless a key is rejected, and
normalizing a key once more changes nothing. -/
theorem ofEntries_isMapOf (hgiven : ∀ e ∈ given, e.1.Proper) :
    ((∃ text, (ofEntries kind given).mapError Failure.badKey =
          .error (.exception .invalidArgument text)) ↔
        ∃ e ∈ given, kind.normalize? e.1 = none) ∧
      ((∀ e ∈ given, kind.normalize? e.1 ≠ none) →
        ∃ entries, ofEntries kind given = .ok entries ∧ IsMapOf kind given entries) ∧
      ∀ key sought : Value ω, kind.normalize? key = some sought →
        kind.normalize? sought = some sought := by
  -- both the rejection and the acceptance are those of storing into no entries
  have hrejected := storeAll_eq_error kind [] given
  refine ⟨?_, ?_, fun _ _ => KeyKind.normalize?_normalized⟩
  · rw [← hrejected, ofEntries]
    cases storeAll kind [] given with
    | error bad => exact ⟨fun _ => ⟨bad, rfl⟩, fun _ => ⟨_, rfl⟩⟩
    | ok entries =>
      constructor
      · rintro ⟨text, ⟨⟩⟩
      · rintro ⟨bad, ⟨⟩⟩
  · intro haccepted
    cases h : ofEntries kind given with
    | error bad =>
      obtain ⟨e, he, hnone⟩ := hrejected.mp ⟨bad, h⟩
      exact absurd hnone (haccepted e he)
    | ok entries => exact ⟨entries, rfl, isMapOf_of_ofEntries hhost hobjects hgiven h⟩

end Map

/-! ### Keys of a sample host -/

/-- The key one as an integer and as a double, and two equal objects as keys. -/
def sampleEntries : Entries SampleObject :=
  [(.int64 1, .bool false), (.object (.named (utf8 "a") 0), .nil), (.double .one, .bool true),
    (.object (.named (utf8 "a") 1), .int64 2)]

/-- The sample keys are proper. -/
theorem proper_sampleEntries : ∀ e ∈ sampleEntries, e.1.Proper := by
  have hint : (.int64 1 : Value SampleObject).Proper := by
    refine Value.proper_of_parts_eq_nil rfl rfl ?_
    rintro _ ⟨⟩
    exact ⟨fun n h => Option.some.inj h ▸ by decide, Double.isNaN_ofInt _⟩
  have hdouble : (.double .one : Value SampleObject).Proper := by
    refine Value.proper_of_parts_eq_nil rfl rfl ?_
    rintro _ ⟨⟩
    exact ⟨nofun, by decide⟩
  have hobject : ∀ o : SampleObject, (.object o : Value SampleObject).Proper :=
    fun o => Value.proper_of_parts_eq_nil rfl rfl nofun
  simp [sampleEntries, hint, hdouble, hobject]

/-- Two keys are left, as they came first, with the values that came last. -/
theorem ofEntries_isMapOf_sampleEntries :
    ∃ entries, ofEntries .any sampleEntries = .ok entries ∧
      IsMapOf .any sampleEntries entries ∧
      entries.map (·.1) = [.int64 1, .object (.named (utf8 "a") 0)] ∧
      lookup entries (.double .one) = .bool true := by
  obtain ⟨-, hbuilt, -⟩ := @ofEntries_isMapOf _ _ .any sampleEntries Host.lawful_sampleObject
    Value.hash_sampleObject proper_sampleEntries
  have haccepted : ∀ e ∈ sampleEntries, KeyKind.any.normalize? e.1 ≠ none := by
    simp [sampleEntries, KeyKind.normalize?, Value.isNil, Value.isHashable, Host.isHashable]
  obtain ⟨entries, hentries, hmap⟩ := hbuilt haccepted
  have hone := proper_sampleEntries (.double .one, .bool true) (by simp [sampleEntries])
  have hkeys : normalizedKeys .any sampleEntries = [.int64 1, .object (.named (utf8 "a") 0),
      .double .one, .object (.named (utf8 "a") 1)] := rfl
  -- the comparisons of the four keys with the two that are left
  have hones : (.double .one : Value SampleObject).equal (.int64 1) ∧
      (.int64 1 : Value SampleObject).equal (.double .one) ∧
      (.double .one : Value SampleObject).equal (.double .one) := by decide +kernel
  have hobjects : (.object (.named (utf8 "a") 1) : Value SampleObject).equal
      (.object (.named (utf8 "a") 0)) := by decide +kernel
  have hapart : ∀ o : SampleObject, (.object o : Value SampleObject).equal (.int64 1) = false ∧
      (.object o : Value SampleObject).equal (.double .one) = false := fun _ => ⟨rfl, rfl⟩
  refine ⟨entries, hentries, hmap, ?_, ?_⟩
  · -- two of the keys equal an earlier one
    rw [hmap.keys, hkeys]
    simp [List.eraseDupsBy_cons, hones, hobjects, hapart]
  · rw [hmap.lookup _ _ hone rfl]
    simp [lastValue?, sampleEntries, KeyKind.normalize?, Value.isNil, Value.isHashable,
      Host.isHashable, hones, hapart]

end Dictionary

end DynExpr
