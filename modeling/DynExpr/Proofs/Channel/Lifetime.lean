import DynExpr.Proofs.Channel.Carries

/-!
# The life of a handle

A table grows when a value is stored and shrinks when it is truncated, so a place may be filled,
given up and filled again in the course of a *history* of steps. A handle is only a place in
disguise, and what it carries is what stands at its place now.

* `ValueTable.Issues` says that in a history a value became the entry at a place, and that storing
  it yielded a channel value. That channel value is the handle of the place (`Issues.eq_handle`).
* As long as no later truncation reaches the place, the entry stays there
  (`getElem?_after_of_spares`, one step at a time): the handle carries the value.
* Once a truncation has reached the place, nothing stands there until a value is issued the same
  place again (`size_after_le_of_not_reissued`): the handle is an ordinary double.
* A double that is no handle means the same in every state (`load_of_not_handle`).

`ValueTable.handle_lifetime` puts these together for all histories that start with the empty table
and never hold more entries than there are tags.
-/

namespace DynExpr

variable {ω : Type}

/-- What is done to a table of values. -/
inductive TableStep (ω : Type)
  | store (value : Value ω)
  | truncate (length : Nat)

/-- The double has the bits of a handle: it is a NaN of the reserved range behind the tags of the
truth values and of nil. -/
def Channel.InHandleRange (d : Double) : Prop :=
  mask ||| 4 ≤ d.bits ∧ d.bits ≤ mask ||| 0x7FFFFFFFFFFFF

namespace ValueTable

/-- The table after one step. -/
def step (table : ValueTable ω) : TableStep ω → ValueTable ω
  | .store value => (table.store value).2
  | .truncate length => table.truncate length

/-- The table after a history. -/
def after (table : ValueTable ω) (history : List (TableStep ω)) : ValueTable ω :=
  history.foldl step table

/-- In no state on the way are there more entries than tags. -/
def Fits (table : ValueTable ω) (history : List (TableStep ω)) : Prop :=
  ∀ earlier, earlier <+: history → (table.after earlier).size ≤ Channel.capacity

/-- At some point of the history, storing `v` made the entry `k` and yielded `h`; the steps after
that point are `later`. -/
def Issues (history : List (TableStep ω)) (v : Value ω) (k : Nat) (h : Double)
    (later : List (TableStep ω)) : Prop :=
  ∃ earlier, history = earlier ++ .store v :: later ∧ (empty.after earlier).size = k ∧
    (empty.after earlier).store v = (h, ⟨(empty.after earlier).entries.push v⟩)

/-- No step truncates the table to a length that leaves out the place `k`. -/
def Spares (k : Nat) (steps : List (TableStep ω)) : Prop :=
  ∀ length, .truncate length ∈ steps → k < length

/-- One of the steps, taken after `history`, fills the place `k`. -/
def Reissues (history : List (TableStep ω)) (k : Nat) (steps : List (TableStep ω)) : Prop :=
  ∃ passed v h, passed ++ [.store v] <+: steps ∧ Issues (history ++ passed ++ [.store v]) v k h []

/-! ### Histories -/

section Histories

variable {table : ValueTable ω} {history steps : List (TableStep ω)} {k : Nat} {v : Value ω}
  {h : Double} {later : List (TableStep ω)}

/-- Without steps a table stays as it is. -/
@[simp] theorem after_nil : table.after [] = table := rfl

/-- The first step of a history is taken first. -/
@[simp] theorem after_cons (step : TableStep ω) :
    table.after (step :: steps) = (table.step step).after steps := rfl

/-- Histories are taken one after the other. -/
theorem after_append : table.after (history ++ steps) = (table.after history).after steps :=
  List.foldl_append

/-- A truncated table has the given length at most. -/
@[simp] theorem size_truncate (length : Nat) :
    (table.truncate length).size = min length table.size := by
  simp [truncate, size]

/-- Truncating keeps the entries in front of the given length. -/
theorem getElem?_truncate {length : Nat} (hk : k < length) :
    (table.truncate length).entries[k]? = table.entries[k]? := by
  rw [truncate, ← Array.getElem?_toList, Array.take_eq_extract, Array.toList_extract,
    ← Array.getElem?_toList]
  simp [List.getElem?_take_of_lt hk]

/-- A step makes one entry at most. -/
theorem size_step_le (step : TableStep ω) : (table.step step).size ≤ table.size + 1 := by
  cases step with
  | store v =>
    rw [ValueTable.step, size_store]
    split <;> omega
  | truncate length =>
    rw [ValueTable.step, size_truncate]
    omega

/-- A history makes no more entries than it has steps. -/
theorem size_after_le : (table.after steps).size ≤ table.size + steps.length := by
  induction steps generalizing table with
  | nil => exact Nat.le_refl _
  | cons step rest ih =>
    have hstep : (table.step step).size ≤ table.size + 1 := size_step_le step
    have hrest : ((table.step step).after rest).size ≤ (table.step step).size + rest.length := ih
    rw [after_cons, List.length_cons]
    omega

/-- A history with fewer steps than there are tags fits. -/
theorem fits_of_length (hlength : history.length ≤ Channel.capacity) : empty.Fits history := by
  intro earlier hprefix
  have hshorter := hprefix.length_le
  -- each step makes one entry at most
  have hsize : (empty.after earlier).size ≤ (empty : ValueTable ω).size + earlier.length :=
    size_after_le
  have hempty : (empty : ValueTable ω).size = 0 := rfl
  omega

/-! ### Issuing a place -/

/-- Only a boxed value makes an entry. -/
theorem store_eq_push (hstore : table.store v = (h, ⟨table.entries.push v⟩)) :
    v.isBoxed ∧ h = Channel.handle table.size := by
  have hsize := size_store table v
  rw [hstore] at hsize
  -- a value that is not boxed would leave the size as it is
  cases hboxed : v.isBoxed with
  | false =>
    rw [hboxed] at hsize
    simp [size] at hsize
  | true =>
    rw [store_of_isBoxed table hboxed] at hstore
    exact ⟨rfl, (Prod.mk.inj hstore).1.symm⟩

/-- **What is issued is the handle of the place**, and there is a tag for the place. -/
theorem Issues.eq_handle (hissue : Issues history v k h later) (hfits : empty.Fits history) :
    h = Channel.handle k ∧ k < Channel.capacity := by
  obtain ⟨earlier, rfl, rfl, hstore⟩ := hissue
  have hafter : (empty.after (earlier ++ [.store v])).size = (empty.after earlier).size + 1 := by
    rw [after_append, after_cons, after_nil, ValueTable.step, hstore]
    simp [size]
  -- the state right after the store is one on the way, so it fits, too
  have hcapacity := hfits (earlier ++ [.store v]) ⟨later, by simp⟩
  exact ⟨(store_eq_push hstore).2, by omega⟩

/-- A boxed value is issued the first free place. -/
theorem issues_of_isBoxed (hboxed : v.isBoxed) (hk : (empty.after history).size = k) :
    Issues (history ++ [.store v]) v k (Channel.handle k) [] := by
  refine ⟨history, rfl, hk, ?_⟩
  rw [store_of_isBoxed _ hboxed, add, hk]

/-! ### While the place is spared -/

/-- What spares a place spares it after the first step. -/
theorem Spares.tail {step : TableStep ω} (hspares : Spares k (step :: steps)) : Spares k steps :=
  fun length hmem => hspares length (List.mem_cons_of_mem _ hmem)

/-- A step that spares a place keeps its entry. -/
theorem getElem?_step_of_spares {step : TableStep ω} (hspares : Spares k (step :: steps))
    (hentry : table.entries[k]? = some v) : (table.step step).entries[k]? = some v := by
  -- a store adds behind the entry, and a truncation keeps what is in front of its length
  cases step with
  | store w => exact getElem?_of_le (le_store table w) hentry
  | truncate length =>
    rw [ValueTable.step, getElem?_truncate (hspares length List.mem_cons_self)]
    exact hentry

/-- **An entry stays in a place that is spared.** -/
theorem getElem?_after_of_spares (hspares : Spares k steps)
    (hentry : table.entries[k]? = some v) : (table.after steps).entries[k]? = some v := by
  induction steps generalizing table with
  | nil => exact hentry
  | cons step rest ih => exact ih hspares.tail (getElem?_step_of_spares hspares hentry)

/-- While the place is spared, its handle carries the value that was issued. -/
theorem Issues.load_of_spares (hissue : Issues history v k h later) (hfits : empty.Fits history)
    (hspares : Spares k later) : (empty.after history).load h = v := by
  obtain ⟨rfl, hk⟩ := hissue.eq_handle hfits
  obtain ⟨earlier, rfl, rfl, hstore⟩ := hissue
  have hentry : ((empty.after earlier).step (.store v)).entries[(empty.after earlier).size]? =
      some v := by
    rw [ValueTable.step, hstore]
    simp [size]
  rw [after_append, after_cons, load_handle hk, getElem?_after_of_spares hspares hentry,
    Option.getD_some]

/-! ### After the place is given up -/

/-- A place that is issued after the first step is issued in the whole history. -/
theorem Reissues.of_cons {step : TableStep ω} (hreissues : Reissues (history ++ [step]) k steps) :
    Reissues history k (step :: steps) := by
  obtain ⟨passed, w, g, hprefix, hissue⟩ := hreissues
  refine ⟨step :: passed, w, g, ?_, ?_⟩
  · exact List.cons_prefix_cons.mpr ⟨rfl, hprefix⟩
  · rwa [List.append_assoc history [step] passed, List.singleton_append] at hissue

/-- A step that does not issue a free place leaves it free. -/
theorem size_step_le_of_not_reissued {step : TableStep ω}
    (hsize : (empty.after history).size ≤ k) (hfree : ¬ Reissues history k (step :: steps)) :
    ((empty.after history).step step).size ≤ k := by
  cases step with
  | truncate length =>
    rw [ValueTable.step, size_truncate]
    omega
  | store w =>
    rw [ValueTable.step, size_store]
    by_cases hboxed : w.isBoxed
    · -- the entry is made below the place, since the place itself is not issued
      have hne : (empty.after history).size ≠ k := by
        intro heq
        refine hfree ⟨[], w, Channel.handle k, ⟨steps, rfl⟩, ?_⟩
        rw [List.append_nil]
        exact issues_of_isBoxed hboxed heq
      rw [if_pos hboxed]
      omega
    · rw [if_neg hboxed]
      exact hsize

/-- **A free place stays free** until it is issued. -/
theorem size_after_le_of_not_reissued (hsize : (empty.after history).size ≤ k)
    (hfree : ¬ Reissues history k steps) : (empty.after (history ++ steps)).size ≤ k := by
  -- the history grows by each step, so that places are issued after all of the steps before
  induction steps generalizing history with
  | nil => rwa [List.append_nil]
  | cons step rest ih =>
    have hstep : (empty.after (history ++ [step])).size ≤ k := by
      rw [after_append]
      exact size_step_le_of_not_reissued hsize hfree
    have hrest := ih hstep fun hreissues => hfree hreissues.of_cons
    rwa [List.append_assoc, List.singleton_append] at hrest

/-- The handle of a free place is a double like any other. -/
theorem load_handle_of_size_le (hk : k < Channel.capacity) (hsize : table.size ≤ k) :
    table.load (Channel.handle k) = .double (Channel.handle k) := by
  rw [load_handle hk, Array.getElem?_eq_none hsize, Option.getD_none]

end Histories

/-! ### Doubles that are no handles -/

/-- Handles have the bits of handles. -/
theorem inHandleRange_handle {k : Nat} (hk : k < Channel.capacity) :
    Channel.InHandleRange (Channel.handle k) := by
  have hbits := Channel.toNat_handle hk
  unfold Channel.capacity at hk
  rw [Channel.toNat_mask] at hbits
  constructor
  · rw [UInt64.le_iff_toNat_le, hbits, Channel.toNat_mask_or (by decide), Channel.toNat_mask,
      Channel.toNat_four]
    omega
  · have htop : (Channel.mask ||| 0x7FFFFFFFFFFFF).toNat = 2 ^ 64 - 1 := by decide
    rw [UInt64.le_iff_toNat_le, hbits, htop]
    omega

/-- A double that is no handle carries the same in every table. -/
theorem load_of_not_handle {table : ValueTable ω} (hsize : table.size ≤ Channel.capacity)
    {d : Double} (h : ¬ Channel.InHandleRange d) :
    table.load d = (empty : ValueTable ω).load d := by
  by_cases hreserved : Channel.Reserved d
  · -- of the reserved doubles, only handles depend on the table
    rcases (Channel.reserved_iff_tag d).mp hreserved with ⟨flag, rfl⟩ | rfl | ⟨k, hk, rfl⟩
    · rw [load_ofBool, load_ofBool]
    · rw [load_nil, load_nil]
    · exact absurd (inHandleRange_handle hk) h
  · rw [load_of_not_reserved hsize hreserved, load_of_not_reserved (Nat.zero_le _) hreserved]

/-! ### The whole life -/

/-- **Handles stay valid.** Take any history of stores and truncations of a table that is empty at
the start and never holds more entries than there are tags. Whenever a value was stored as entry
`k`, its handle carries exactly that value as long as no later truncation has reached `k`. From a
truncation that reaches `k` on, the handle is a double like any other, until the place is issued
again. Live handles of different places differ, and a double out of the range of handles carries
the same in every state. -/
theorem handle_lifetime (history : List (TableStep ω)) (hfits : empty.Fits history) :
    (∀ v k h later, Issues history v k h later → Spares k later →
      (empty.after history).load h = v) ∧
    (∀ v k h later v' k' h' later', Issues history v k h later → Spares k later →
      Issues history v' k' h' later' → Spares k' later' → k ≠ k' → h.bits ≠ h'.bits) ∧
    (∀ v k h passed length since,
      Issues history v k h (passed ++ .truncate length :: since) → length ≤ k →
      (∀ earlier, history = earlier ++ since → ¬ Reissues earlier k since) →
      (empty.after history).load h = .double h) ∧
    (∀ d, ¬ Channel.InHandleRange d → ∀ earlier, earlier <+: history →
      (empty.after earlier).load d = (empty : ValueTable ω).load d) := by
  refine ⟨?_, ?_, ?_, ?_⟩
  · intro v k h later hissue hspares
    exact hissue.load_of_spares hfits hspares
  · intro v k h later v' k' h' later' hissue _ hissue' _ hne hbits
    obtain ⟨rfl, hk⟩ := hissue.eq_handle hfits
    obtain ⟨rfl, hk'⟩ := hissue'.eq_handle hfits
    -- the place is read off the bits
    have hsame : Channel.handle k = Channel.handle k' :=
      Channel.double_ext (congrArg UInt64.toNat hbits)
    refine hne ?_
    rw [← Channel.place_handle hk, hsame, Channel.place_handle hk']
  · intro v k h passed length since hissue hlength hfree
    obtain ⟨rfl, hk⟩ := hissue.eq_handle hfits
    obtain ⟨earlier, rfl, -, -⟩ := hissue
    -- the history up to and including the truncation
    have hsplit : earlier ++ .store v :: (passed ++ .truncate length :: since) =
        (earlier ++ .store v :: (passed ++ [.truncate length])) ++ since := by
      simp
    have hcut : (empty.after (earlier ++ .store v :: (passed ++ [.truncate length]))).size ≤ k := by
      rw [← List.cons_append, ← List.append_assoc, after_append, after_cons, after_nil,
        ValueTable.step, size_truncate]
      omega
    -- behind the truncation the place is free, and stays so
    have hsize := size_after_le_of_not_reissued hcut (hfree _ hsplit)
    rw [← hsplit] at hsize
    exact load_handle_of_size_le hk hsize
  · intro d hd earlier hprefix
    exact load_of_not_handle (hfits earlier hprefix) hd

/-- Two texts are stored and the table is cut behind the first one: its handle still carries it,
and the handle of the second one is an ordinary double until a third text takes the place. -/
theorem handle_lifetime_two_texts :
    let stored : List (TableStep Empty) :=
      [.store (.string (utf8 "a")), .store (.string (utf8 "b")), .truncate 1]
    let refilled := stored ++ [.store (.string (utf8 "c"))]
    empty.Fits stored ∧ empty.Fits refilled ∧
      (empty.after stored).load (Channel.handle 0) = .string (utf8 "a") ∧
      (empty.after stored).load (Channel.handle 1) = .double (Channel.handle 1) ∧
      (empty.after refilled).load (Channel.handle 1) = .string (utf8 "c") := by
  intro stored refilled
  have hfits : empty.Fits stored := fits_of_length (by decide)
  have hfits' : empty.Fits refilled := fits_of_length (by decide)
  obtain ⟨hlive, -, hstale, -⟩ := handle_lifetime stored hfits
  obtain ⟨hlive', -, -, -⟩ := handle_lifetime refilled hfits'
  refine ⟨hfits, hfits', ?_, ?_, ?_⟩
  · refine hlive _ 0 _ [.store (.string (utf8 "b")), .truncate 1] ⟨[], rfl, rfl, rfl⟩ ?_
    intro length hmem
    simp only [List.mem_cons, TableStep.truncate.injEq, List.not_mem_nil, or_false, reduceCtorEq,
      false_or] at hmem
    omega
  · refine hstale (.string (utf8 "b")) 1 _ [] 1 [] ⟨[.store (.string (utf8 "a"))], rfl, rfl, rfl⟩
      (Nat.le_refl 1) ?_
    rintro earlier - ⟨passed, v, h, hprefix, -⟩
    exact absurd hprefix.length_le (by simp)
  · refine hlive' _ 1 _ [] ⟨stored, rfl, by decide, rfl⟩ ?_
    exact fun length hmem => absurd hmem List.not_mem_nil

end ValueTable

end DynExpr
