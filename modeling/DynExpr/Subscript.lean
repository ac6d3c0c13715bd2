import DynExpr.Value.Coercion

/-!
# Subscripts

An array is subscripted by a number or by a range of numbers, a text by a number of a
character, by a position, or by a range of either, and a dictionary by a key. A subscript
reaches only into its container: what lies outside is an error that names the bound that was
not met.

* `resolveBounds` resolves a range of integers in a container of a given length.
* `subscript` reads any container at any index.
* `subscriptReader` checks once that a value is a container at all.
-/

namespace DynExpr

variable {ω : Type}

/-! ### Ranges of integers -/

/-- Why a range does not resolve: its bounds are out of order, or a bound lies outside. -/
inductive BoundsFault
  | disordered
  | outside (bound : Int64)
deriving DecidableEq

/-- Resolves the inclusive bounds of a range that is not empty. The lower one is checked
first. -/
def resolveBetween (lower upper : Int64) (count : Nat) : Except BoundsFault (Nat × Nat) :=
  if lower.toInt < 0 ∨ count ≤ lower.toInt then .error (.outside lower)
  else if count ≤ upper.toInt then .error (.outside upper)
  else .ok (lower.toInt.toNat, upper.toInt.toNat + 1)

/-- Resolves a range of integers in a container of `count` elements to the numbers of the
first element and of the one behind the last. A range is checked by its inclusive bounds; only
a half-open range may be empty, anywhere from the beginning to the end. Where a range has both
bounds, the upper one is compared with the integer before the lower one, and before the least
integer comes the greatest one. -/
def resolveBounds (range : Range Int64) (count : Nat) : Except BoundsFault (Nat × Nat) :=
  let lower := range.lower
  let upper := range.upper
  match range.kind with
  | .closed =>
    if upper ≤ lower - 1 then .error .disordered else resolveBetween lower upper count
  | .halfOpen =>
    if upper - 1 < lower - 1 then .error .disordered
    -- an empty range may also stand behind the last element
    else if upper - 1 = lower - 1 then
      if lower.toInt < 0 ∨ count < lower.toInt then .error (.outside lower)
      else .ok (lower.toInt.toNat, lower.toInt.toNat)
    else resolveBetween lower (upper - 1) count
  | .onward =>
    if lower.toInt < 0 ∨ count ≤ lower.toInt then .error (.outside lower)
    else .ok (lower.toInt.toNat, count)
  | .upTo =>
    if upper.toInt ≤ 0 then .error (.outside upper)
    else if count < upper.toInt then .error (.outside (upper - 1))
    else .ok (0, upper.toInt.toNat)
  | .through =>
    if upper.toInt < 0 ∨ count ≤ upper.toInt then .error (.outside upper)
    else .ok (0, upper.toInt.toNat + 1)

/-! ### Sequences -/

/-- Reads a sequence at a number, or cuts a slice at a range of numbers. -/
def subscriptElements (symbol : Symbol) (container : Value ω) (elements : List (Value ω))
    (index : Value ω) : Except (Error ω) (Value ω) :=
  match index with
  | .intRange range =>
    match resolveBounds range elements.length with
    | .ok (start, stop) => .ok (.slice ((elements.drop start).take (stop - start)))
    | .error .disordered => .error (.invalidRange range.lower range.upper)
    | .error (.outside bound) => .error (.arrayBounds symbol (Double.ofInt bound.toInt))
  | index =>
    match index.number? with
    | none => .error (.typeMismatch symbol [container, index])
    | some number =>
      match index.integer? with
      | none => .error (.arrayBounds symbol number.toDouble)
      | some offset =>
        let outside : Except (Error ω) (Value ω) :=
          .error (.arrayBounds symbol (Double.ofInt offset.toInt))
        if offset < 0 then outside
        else
          match elements[offset.toInt.toNat]? with
          | some element => .ok element
          | none => outside

/-! ### Texts -/

namespace Substring

/-- The number of characters in a window. -/
def characterCount (window : Substring) : Nat := window.text.characterCount

/-- The position of the character with the given number from the start of the window, counted
in the base. -/
def position (window : Substring) (number : Nat) : Nat :=
  Text.advance window.base window.start number

/-- The boundary after a position in the base. -/
def nextBoundary (window : Substring) (position : Nat) : Nat :=
  Text.nextBoundary window.base position

/-- The character of the base at a position. -/
def characterAt (window : Substring) (position : Nat) : Text :=
  (window.base.drop position).take (window.nextBoundary position - position)

/-- The number of the character at a position, counted from the start of the window: negative
in front of it, and beyond the base one for each byte. -/
def characterOffset (window : Substring) (position : UInt64) : Int64 :=
  let index := position.toNat
  if window.start ≤ index then
    let inside := (window.base.drop window.start).take (min index window.base.length - window.start)
    let beyond := UInt64.ofNat (index - window.base.length)
    Int64.ofInt (Text.characterCount inside) + beyond.toInt64
  else
    Int64.ofInt (-Text.characterCount ((window.base.drop index).take (window.start - index)))

end Substring

/-- The error of a position outside a window. -/
def Error.windowBounds (window : Substring) (position : UInt64) : Error ω :=
  .stringBounds window.text (window.characterOffset position)

/-- A part of a window's base as a value. -/
def cut (window : Substring) (start stop : Nat) : Except (Failure ω) (Value ω) :=
  match Substring.window? window.base start stop with
  | some part => .ok (.substring part)
  | none => .error .badWindow

/-- Cuts a window at a range of positions whose lower bound is `lower`: up to `upper`, or up to
the end of the character there if the range is closed. -/
def cutBetween (window : Substring) (closed : Bool) (lower upper : UInt64) :
    Except (Failure ω) (Value ω) :=
  let outside (position : UInt64) : Except (Failure ω) (Value ω) :=
    .error (.error (.windowBounds window position))
  let low := lower.toNat
  let high := upper.toNat
  if high < low then .error (.error (.invalidIndexRange lower upper))
  else if !closed && high == low then
    if low < window.start || window.stop < low then outside lower else cut window low low
  else if low < window.start || window.stop ≤ low then outside lower
  else if closed then
    if window.stop ≤ high then outside upper else cut window low (window.nextBoundary high)
  else if high ≤ window.start || window.stop < high then outside upper
  else cut window low high

/-- Cuts a window at a range of positions. A missing bound is the start or the end of the
window. -/
def subscriptIndexRange (window : Substring) (range : Range UInt64) :
    Except (Failure ω) (Value ω) :=
  let outside (position : UInt64) : Except (Failure ω) (Value ω) :=
    .error (.error (.windowBounds window position))
  let start := UInt64.ofNat window.start
  let stop := UInt64.ofNat window.stop
  match range.kind with
  | .closed => cutBetween window true range.lower range.upper
  | .halfOpen => cutBetween window false range.lower range.upper
  | .through =>
    if range.upper < start then outside range.upper else cutBetween window true start range.upper
  | .upTo =>
    if range.upper ≤ start then outside range.upper else cutBetween window false start range.upper
  | .onward =>
    if stop ≤ range.lower then outside range.lower else cutBetween window false range.lower stop

/-- Reads a text at a position or at the number of a character, or cuts it at a range of
either. -/
def subscriptText (symbol : Symbol) (container : Value ω) (window : Substring) (index : Value ω) :
    Except (Failure ω) (Value ω) :=
  let mismatch : Except (Failure ω) (Value ω) :=
    .error (.error (.typeMismatch symbol [container, index]))
  match index with
  | .index position =>
    if position.toNat < window.start || window.stop ≤ position.toNat then
      .error (.error (.windowBounds window position))
    else .ok (.character (window.characterAt position.toNat))
  | .indexRange range => subscriptIndexRange window range
  | .intRange range =>
    match resolveBounds range window.characterCount with
    | .error .disordered => .error (.error (.invalidRange range.lower range.upper))
    | .error (.outside bound) => .error (.error (.stringBounds window.text bound))
    | .ok (start, stop) =>
      let first := window.position start
      if stop ≤ start then cut window first first
      else cut window first (window.nextBoundary (window.position (stop - 1)))
  | index =>
    match index.integer? with
    | none => mismatch
    | some offset =>
      if offset < 0 ∨ window.characterCount ≤ offset.toInt then
        .error (.error (.stringBounds window.text offset))
      else .ok (.character (window.characterAt (window.position offset.toInt.toNat)))

/-! ### All containers -/

/-- Reads a container at an index. -/
def subscript [Host ω] (symbol : Symbol) (container index : Value ω) :
    Except (Failure ω) (Value ω) :=
  match container with
  | .array elements | .slice elements =>
    (subscriptElements symbol container elements index).mapError .error
  | .string text => subscriptText symbol container (.whole text) index
  | .substring window => subscriptText symbol container window index
  | .dictionary keys entries =>
    match keys.normalize? index with
    | some key => .ok (Dictionary.lookup entries key)
    | none => .error (.error (.typeMismatch symbol [container, index]))
  | container => .error (.error (.illegalSubscript symbol container))

/-- The value is a container that can be subscripted. -/
def Value.isSubscriptable : Value ω → Bool
  | .array _ | .slice _ | .dictionary _ _ | .string _ | .substring _ => true
  | _ => false

/-- Reads a container at the only index of a list. -/
def subscriptAt [Host ω] (symbol : Symbol) (container : Value ω) (indices : List (Value ω)) :
    Except (Failure ω) (Value ω) :=
  match indices with
  | [index] => subscript symbol container index
  | _ => .error (.error (.arityMismatch symbol))

/-- The reader of a value at lists of one index, if the value is a container. -/
def subscriptReader [Host ω] (symbol : Symbol) (container : Value ω) :
    Except (Failure ω) (List (Value ω) → Except (Failure ω) (Value ω)) :=
  if container.isSubscriptable then .ok (subscriptAt symbol container)
  else .error (.error (.illegalSubscript symbol container))

end DynExpr
