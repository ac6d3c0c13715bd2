import DynExpr.Value

/-!
# Equality and look-up

Values are compared by content, and a dictionary is searched by hash and equality. The two depend on
one another: dictionaries are compared by look-ups of their keys.

* `Value.equal` and `Value.hash` are equality and the hash that agrees with it.
* `Dictionary.ofEntries` builds the entries of a dictionary, and `Dictionary.lookup` finds a value.
-/

/-!
## The order in which a look-up meets entries

Entries whose keys have one hash lie behind one another in the table of a dictionary, and a
look-up takes the first one that its key equals. A new entry comes to lie in front. A table has
a size; when it is full, its entries move in that order to a table of the next size, each to the
front again, so that moving turns the order around.

The order can be told only by a key that equals several stored ones which differ from one
another, as an integer beyond `2 ^ 53` and its neighbour both equal a double.

* `meetingOrder` is the order in which the entries of a dictionary are met.
-/

namespace DynExpr

/-- The sizes of tables: primes, each the first one listed from twice its predecessor on. -/
def tableSizes : List Nat :=
  [13, 29, 59, 127, 257, 541, 1109, 2357, 5087, 10273, 20753, 42043, 85229, 172933, 351061, 712697,
    1447153, 2938679]

/-- Puts a new entry in front of the entries met so far, of which there are `count`. -/
def meetFirst {α : Type} (count : Nat) (met : List α) (entry : α) : List α :=
  entry :: if tableSizes.contains count then met.reverse else met

/-- The order of meeting after entries were added to those met so far, of which there are
`count`. -/
def meetingOrderFrom {α : Type} (count : Nat) (met : List α) : List α → List α
  | [] => met
  | entry :: rest => meetingOrderFrom (count + 1) (meetFirst count met entry) rest

/-- Entries in the order in which a look-up meets them, given the order in which they were
added. -/
def meetingOrder {α : Type} (entries : List α) : List α := meetingOrderFrom 0 [] entries

/-- Every entry is met. -/
theorem mem_meetingOrderFrom {α : Type} (a : α) (count : Nat) (met entries : List α) :
    a ∈ meetingOrderFrom count met entries ↔ a ∈ met ∨ a ∈ entries := by
  induction entries generalizing count met with
  | nil => simp [meetingOrderFrom]
  | cons entry rest ih =>
    have first : a ∈ meetFirst count met entry ↔ a = entry ∨ a ∈ met := by
      unfold meetFirst
      split <;> simp
    simp only [meetingOrderFrom, ih, first, List.mem_cons]
    grind

/-- The entries that are met are those that were added. -/
@[simp] theorem mem_meetingOrder {α : Type} (a : α) (entries : List α) :
    a ∈ meetingOrder entries ↔ a ∈ entries := by
  simp [meetingOrder, mem_meetingOrderFrom]

end DynExpr

/-!
## Structural equality and hashing

Values are compared by content. Nil equals nil and null; numbers are compared by value and
texts by their bytes, whatever their representation; sequences and tuples element by element.
Two dictionaries are equal if they have equally many entries and each key of the first one is
found in the second, with an equal value: found as a look-up finds it, by hash and equality and
in the order of meeting.

Equality has a direction, since a look-up asks whether the sought key equals a stored one.
`Value.comparison` is therefore defined for both directions at once, by recursion on one side:

* `Value.equal a b` is `a == b`, and `Value.hash` is the hash that agrees with it.
* `Value.comparison true a b` is `b == a`.
-/

namespace DynExpr.Value

variable {ω : Type} [Host ω]

/-! ### Hashing -/

/-- Mixes a further hash into a seed. -/
def mixHash (seed value : UInt64) : UInt64 :=
  seed ^^^ (value + (0x9e3779b9 : UInt64) + (seed <<< (6 : UInt64)) + (seed >>> (2 : UInt64)))

/-- The hash of a number: that of the double nearest to it, with one zero for both. -/
def hashNumber (ω : Type) [Host ω] (number : Number) : UInt64 :=
  let value := number.toDouble
  Host.hashDouble ω (if value.isZero then Double.zero else value)

/-- The rank of a shape of ranges. -/
def rangeRank : RangeKind → UInt64
  | .closed => 0
  | .halfOpen => 1
  | .onward => 2
  | .upTo => 3
  | .through => 4

mutual
/-- The hash of a value. The order of a dictionary's entries has no influence on it. -/
def hash : Value ω → UInt64
  | nil | null => 0
  | bool flag => Host.hashBool ω flag
  | double x => hashNumber ω (.double x)
  | int64 n => hashNumber ω (.int64 n)
  | uint64 n => hashNumber ω (.uint64 n)
  | string text => Host.hashText ω text
  | substring window => Host.hashText ω window.text
  | character text => Host.hashText ω text
  | index offset => Host.hashIndex ω offset
  | intRange range =>
    mixHash (mixHash (rangeRank range.kind) (Host.hashInteger ω range.lower))
      (Host.hashInteger ω range.upper)
  | indexRange range =>
    mixHash (mixHash (rangeRank range.kind + 7) (Host.hashIndex ω range.lower))
      (Host.hashIndex ω range.upper)
  | array elements => hashAll (UInt64.ofNat elements.length) elements
  | slice elements => hashAll (UInt64.ofNat elements.length) elements
  | dictionary _ entries => UInt64.ofNat entries.length + hashEntries entries
  | tuple elements => hashAll (UInt64.ofNat elements.length + 1) elements
  | object o => Host.hash o

/-- Mixes the hashes of a list of values into a seed, in order. -/
def hashAll (seed : UInt64) : List (Value ω) → UInt64
  | [] => seed
  | v :: rest => hashAll (mixHash seed (hash v)) rest

/-- The sum of the hashes of a dictionary's entries. -/
def hashEntries : List (Value ω × Value ω) → UInt64
  | [] => 0
  | (k, v) :: rest => mixHash (hash k) (hash v) + hashEntries rest
end

/-! ### Equality -/

/-- Two objects of the host are equal: by content if both support that, else by identity. -/
def objectsEqual (a b : ω) : Bool :=
  if Host.isHashable a && Host.isHashable b then Host.isEqual a b else Host.isSame a b

/-- One entry of a dictionary, ready to be compared with entries of another one. -/
structure EntryTest (ω : Type) where
  hash : UInt64
  matchesKey : Value ω → Bool
  matchesValue : Value ω → Bool

/-- Each tested entry is found among the entries of the other dictionary. -/
def eachFound (tests : List (EntryTest ω)) (entries : List (Value ω × Value ω)) : Bool :=
  let stored := meetingOrder entries
  tests.all fun test =>
    match stored.find? (fun entry => hash entry.1 == test.hash && test.matchesKey entry.1) with
    | some entry => test.matchesValue entry.2
    | none => false

/-- Each entry of the other dictionary is found among the tested ones. -/
def findsEach (tests : List (EntryTest ω)) (entries : List (Value ω × Value ω)) : Bool :=
  let stored := meetingOrder tests
  entries.all fun entry =>
    let sought := hash entry.1
    match stored.find? (fun test => test.hash == sought && test.matchesKey entry.1) with
    | some test => test.matchesValue entry.2
    | none => false

mutual
/-- Whether the first value equals the second or, if `flipped`, the second equals the
first. -/
def comparison (flipped : Bool) : Value ω → Value ω → Bool
  | nil, b => b.isNil
  | null, b => b.isNil
  | bool p, b => match b with | bool q => p == q | _ => false
  | double x, b => b.number?.any (Number.equal (.double x))
  | int64 n, b => b.number?.any (Number.equal (.int64 n))
  | uint64 n, b => b.number?.any (Number.equal (.uint64 n))
  | string text, b => b.text?.any (· == text)
  | substring window, b => b.text?.any (· == window.text)
  | character text, b => match b with | character other => text == other | _ => false
  | index offset, b => match b with | index other => offset == other | _ => false
  | intRange range, b => match b with | intRange other => range == other | _ => false
  | indexRange range, b => match b with | indexRange other => range == other | _ => false
  | array elements, b =>
    match b.elements? with
    | some others => comparisonAll flipped elements others
    | none => false
  | slice elements, b =>
    match b.elements? with
    | some others => comparisonAll flipped elements others
    | none => false
  | dictionary _ entries, b =>
    match b.entries? with
    | some others =>
      entries.length == others.length &&
        (if flipped then findsEach (entryTests flipped entries) others
          else eachFound (entryTests flipped entries) others)
    | none => false
  | tuple elements, b =>
    match b with
    | tuple others => comparisonAll flipped elements others
    | _ => false
  | object o, b =>
    match b with
    | object p => if flipped then objectsEqual p o else objectsEqual o p
    | _ => false

/-- Compares two lists of values element by element. -/
def comparisonAll (flipped : Bool) : List (Value ω) → List (Value ω) → Bool
  | [], [] => true
  | a :: rest, b :: others => comparison flipped a b && comparisonAll flipped rest others
  | _, _ => false

/-- The entries of a dictionary, ready to be compared. Keys are compared in the direction of
the whole, values in the opposite one: the entry that was found stands on the left. -/
def entryTests (flipped : Bool) : List (Value ω × Value ω) → List (EntryTest ω)
  | [] => []
  | (k, v) :: rest =>
    ⟨hash k, comparison flipped k, comparison (!flipped) v⟩ :: entryTests flipped rest
end

/-- Structural equality. -/
def equal (a b : Value ω) : Bool := comparison false a b

end DynExpr.Value

/-!
## Dictionaries

A dictionary has keys of one declared kind. A key is brought to the form that the kind stores,
*normalized*, before it is stored or sought: a number as a double, a text or a character as a
string. Entries stand in the order in which their keys came first; the value of a key is the
one that came last. A look-up takes the first entry that it meets.

* `KeyKind.normalize?` brings a key to its stored form, if it is compatible.
* `Dictionary.ofEntries` builds the entries of a dictionary, `Dictionary.lookup` finds a value
  by a normalized key.
-/

namespace DynExpr

variable {ω : Type} [Host ω]

/-- The stored form of a key; nothing if the key is not of the kind. Keys of any kind are all
values but nil that support structural comparison. -/
def KeyKind.normalize? (kind : KeyKind) (key : Value ω) : Option (Value ω) :=
  match kind with
  | .number => key.number?.map fun number => .double number.toDouble
  | .string =>
    match key with
    | .character text => some (.string text)
    | key => key.text?.map .string
  | .boolean =>
    match key with
    | .bool flag => some (.bool flag)
    | _ => none
  | .any => if key.isNil || !key.isHashable then none else some key

namespace Dictionary

/-- The entries of a dictionary. -/
abbrev Entries (ω : Type) := List (Value ω × Value ω)

/-- The sought key, whose hash is given, meets a stored one: the stored one has that hash, and
the sought one equals it. -/
def meets (hash : UInt64) (key stored : Value ω) : Bool := stored.hash == hash && key.equal stored

/-- The value of the first entry that a look-up meets, or nil. -/
def lookup (entries : Entries ω) (key : Value ω) : Value ω :=
  let hash := key.hash
  match (meetingOrder entries).find? (fun entry => meets hash key entry.1) with
  | some entry => entry.2
  | none => .nil

/-- The place of the first entry that a look-up meets. -/
def place? (entries : Entries ω) (key : Value ω) : Option Nat :=
  let hash := key.hash
  ((meetingOrder entries.zipIdx).find? fun entry => meets hash key entry.1.1).map (·.2)

/-- Stores a value under a normalized key: in the place of the key, or behind all others. -/
def store (entries : Entries ω) (key value : Value ω) : Entries ω :=
  match place? entries key with
  | some place => entries.modify place fun entry => (entry.1, value)
  | none => entries ++ [(key, value)]

/-- Stores entries one after the other, normalizing their keys. The first incompatible key is
the error. -/
def storeAll (kind : KeyKind) (stored : Entries ω) : Entries ω → Except (Value ω) (Entries ω)
  | [] => .ok stored
  | (key, value) :: rest =>
    match kind.normalize? key with
    | none => .error key
    | some key => storeAll kind (store stored key value) rest

/-- The entries of a dictionary built from a list, or the first incompatible key. -/
def ofEntries (kind : KeyKind) (entries : Entries ω) : Except (Value ω) (Entries ω) :=
  storeAll kind [] entries

end Dictionary

end DynExpr
