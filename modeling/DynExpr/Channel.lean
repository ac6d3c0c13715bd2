import DynExpr.Value.Coercion

/-!
# Values as doubles

Between the nodes of an evaluation tree only doubles travel. Numbers travel as they are. All
other values travel as negative quiet NaNs, whose payload is a tag: one for true, two for
false, three for nil, and from four on the place of the value in a table.

* `Channel.nil`, `Channel.ofBool` and `Channel.handle` are the tagged doubles.
* `ValueTable.store` sends a value, adding it to the table if it has no other form, and
  `ValueTable.load` receives it. A NaN that is no tag and points to no entry is a number.
* `ValueTable.truncate` forgets the entries from a place on.
-/

namespace DynExpr

namespace Channel

/-- The bits of a tagged double, without its tag: a negative quiet NaN. -/
def mask : UInt64 := 0xFFF8000000000000

/-- The double that carries true or false. -/
def ofBool (flag : Bool) : Double := ⟨mask ||| (if flag then 1 else 2)⟩

/-- The double that carries nil. -/
def nil : Double := ⟨mask ||| 3⟩

/-- The double that carries the entry at a place of the table. -/
def handle (place : Nat) : Double := ⟨mask ||| (UInt64.ofNat place + 4)⟩

/-- The place of the entry that a double carries, if it carries one; otherwise a number without
meaning. -/
def place (d : Double) : Nat := ((d.bits ^^^ mask) - 4).toNat

/-- The double is a negative quiet NaN. -/
def isMasked (d : Double) : Bool := (d.bits &&& mask) == mask

/-- The magnitude up to which every integer is a double: two to the power 53. -/
def exactLimit : Int := 9007199254740992

end Channel

/-- The values that are underway and have no form of their own. -/
structure ValueTable (ω : Type) where
  entries : Array (Value ω)

namespace ValueTable

variable {ω : Type}

/-- The table without entries. -/
def empty : ValueTable ω := ⟨#[]⟩

/-- The number of entries. -/
def size (table : ValueTable ω) : Nat := table.entries.size

/-- Adds an entry and yields the double that carries it. -/
def add (table : ValueTable ω) (value : Value ω) : Double × ValueTable ω :=
  (Channel.handle table.size, ⟨table.entries.push value⟩)

/-- Yields the double that carries a value. Doubles, truth values, nil and null, and integers
that are doubles need no entry. -/
def store (table : ValueTable ω) (value : Value ω) : Double × ValueTable ω :=
  match value with
  | .double x => (x, table)
  | .bool flag => (Channel.ofBool flag, table)
  | .nil | .null => (Channel.nil, table)
  -- beyond the limit not every integer is a double, so an entry is made
  | .int64 n =>
    if -Channel.exactLimit ≤ n.toInt ∧ n.toInt ≤ Channel.exactLimit then
      (Double.ofInt n.toInt, table)
    else table.add value
  | .uint64 n =>
    if (n.toNat : Int) ≤ Channel.exactLimit then (Double.ofNat n.toNat, table) else table.add value
  | value => table.add value

/-- The value that a double carries by a tag; nothing if it is a number. -/
def tagged? (table : ValueTable ω) (d : Double) : Option (Value ω) :=
  if d = Channel.nil then some .nil
  else if d = Channel.ofBool true then some (.bool true)
  else if d = Channel.ofBool false then some (.bool false)
  else if Channel.isMasked d then table.entries[Channel.place d]?
  else none

/-- The value that a double carries. -/
def load (table : ValueTable ω) (d : Double) : Value ω := (table.tagged? d).getD (.double d)

/-- The values that doubles carry. -/
def loadAll (table : ValueTable ω) (ds : List Double) : List (Value ω) := ds.map table.load

/-- The number that a double carries for arithmetic; nothing if it carries a value that is no
number. -/
def number? (table : ValueTable ω) (d : Double) : Option Double :=
  match table.tagged? d with
  | some value => value.numeric?
  | none => some d

/-- Keeps the given number of entries. -/
def truncate (table : ValueTable ω) (length : Nat) : ValueTable ω :=
  ⟨table.entries.take length⟩

end ValueTable

end DynExpr
