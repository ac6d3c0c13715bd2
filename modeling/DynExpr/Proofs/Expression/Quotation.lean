import DynExpr.CommandLine
import DynExpr.Proofs.Expression.Evaluators
import DynExpr.Proofs.Node.Spells

/-!
# Quoting a text and evaluating it

`Text.quoted` writes a text as a literal, so that what the language makes of the literal is the
text: whatever its bytes are, and whatever comes after the literal.

* The scanner cuts off exactly the literal, and goes on behind it as it would with a line that
  begins there (`StandsFor.tokensFrom_append`). The token is the text between apostrophes, its
  escapes replaced.
* The literal is read as a variable of this name, and if the host does not define it, it has the
  built-in meaning of its contents (`builtIn?_stringLiteral`). They are stored once, when the
  literal is compiled, and each evaluation yields them (`compile_stringLiteral`).

`quoted_spec` concludes that different texts are written differently, too.
-/

namespace DynExpr

open Text

variable {σ ω : Type}

/-! ### Cutting off a token -/

/-- Scanning goes on behind a token as it would at the beginning of a line. -/
theorem tokensFrom_of_scanLexeme {b : UInt8} {rest : Text} {lexeme : Lexeme} {covered : Nat}
    (hb : isBlank b = false) (hscan : scanLexeme b rest = .ok (lexeme, covered))
    (position : Nat) : tokensFrom position (b :: rest) =
      (tokensFrom (position + covered) (rest.drop (covered - 1))).map
        (⟨lexeme, position, false⟩ :: ·) := by
  -- no blanks stand in front of the token
  have htake : (b :: rest).takeWhile isBlank = [] := by
    rw [List.takeWhile_cons_of_neg (Bool.eq_false_iff.mp hb)]
  have hdrop : (b :: rest).dropWhile isBlank = b :: rest := by
    rw [List.dropWhile_cons_of_neg (Bool.eq_false_iff.mp hb)]
  rw [tokensFrom, htake]
  split
  · next hcut =>
    rw [hdrop] at hcut
    cases hcut
  · next c others hcut =>
    rw [hdrop] at hcut
    obtain ⟨rfl, rfl⟩ := List.cons.inj hcut
    rw [hscan]
    dsimp only
    rw [List.length_nil, Nat.add_zero]
    cases tokensFrom (position + covered) (rest.drop (covered - 1)) <;> rfl

/-- A text that stands for a lexeme is cut off in front of what may follow it. -/
theorem StandsFor.tokensFrom_append {follow : Text → Prop} {text s : Text} {lexeme : Lexeme}
    (h : StandsFor follow text lexeme) (hs : follow s) (position : Nat) :
    tokensFrom position (text ++ s) =
      (tokensFrom (position + text.length) s).map (⟨lexeme, position, false⟩ :: ·) := by
  obtain ⟨b, rest, rfl, hb, hscan⟩ := h
  rw [List.cons_append, tokensFrom_of_scanLexeme hb (hscan s hs), List.length_cons,
    Nat.add_sub_cancel, List.drop_left]

/-! ### String literals -/

/-- The name of the string literal with these contents. -/
def literalName (text : Text) : Text := 39 :: (text ++ [39])

/-- The tree of the string literal with these contents. -/
def Node.stringLiteral (text : Text) : Node := .apply (.var (literalName text)) []

/-- Literals with different contents have different names. -/
theorem literalName_injective : Function.Injective literalName := by
  intro s t h
  exact List.append_cancel_right (List.cons.inj h).2

/-- The contents of a literal are read off its name. -/
@[simp] theorem unquoted?_literalName (text : Text) : unquoted? (literalName text) = some text :=
  unquoted?_quote (.inl rfl) text

/-- The name of a literal is quoted. -/
theorem isQuotedName_literalName (text : Text) : IsQuotedName (literalName text) :=
  ⟨39, text, .inl rfl, rfl⟩

/-- **What is quoted is read as a literal.** -/
theorem parse_quoted (text : Text) : parse (quoted text) = .ok (.stringLiteral text) := by
  have hname := Parser.spellsOperand_var (.inr (isQuotedName_literalName text))
  -- the name is written as the quoted text, and read from it
  have hescaped : Symbol.escapeName (literalName text) = quoted text := by
    rw [Symbol.escapeName, unquoted?_literalName]
  have hrequoted : requoted (literalName text) = literalName text := by
    rw [requoted, unquoted?_literalName, literalName]
  rw [hescaped, hrequoted] at hname
  exact hname.spellsUnary.spellsInfix.parse

/-- No two texts are quoted alike. -/
theorem quoted_injective : Function.Injective quoted := by
  intro s t h
  have hread := parse_quoted s
  rw [h, parse_quoted] at hread
  obtain ⟨hsymbol, -⟩ := Node.apply.inj (Except.ok.inj hread.symm)
  exact literalName_injective (Symbol.var.inj hsymbol)

section Evaluation

variable [Host ω]

/-- **A literal has the meaning of its contents**: no other built-in variable has a quoted name. -/
theorem builtIn?_stringLiteral (logic : Bool) (text : Text) :
    builtIn? logic (.var (literalName text)) = some (.stored (.string text) : Meaning σ ω) := by
  -- names that are not quoted are others
  have hne (name : Text) (h : unquoted? name = none) : literalName text ≠ name := by
    rintro rfl
    rw [unquoted?_literalName] at h
    cases h
  have hnamed : namedConstant? (literalName text) = none := by
    rw [namedConstant?, if_neg (hne _ (by decide)), if_neg (hne _ (by decide)),
      if_neg (hne _ (by decide))]
  have harithmetic : (arithmeticSymbol? (.var (literalName text)) :
      Option (MachineEvaluator σ ω)) = none := by
    rw [arithmeticSymbol?, mathSymbol?, if_neg (hne _ (by decide)), Option.map_none]
  have hstructural : structuralSymbol? (.var (literalName text)) =
      some (.stored (.string text) : Meaning σ ω) := by
    rw [structuralSymbol?, unquoted?_literalName, Option.map_some]
  unfold builtIn?
  dsimp only
  rw [hnamed, if_neg (by rintro ⟨⟩), harithmetic, hstructural]
  cases logic <;> rfl

variable {lookup : HostLookup σ ω} {text : Text}
  (himpure : lookup.impure? (.var (literalName text)) = none)
  (hpure : lookup.pure? (.var (literalName text)) = none)

include himpure hpure

/-- The contents are stored while the tree is built, and the tree yields their handle. -/
theorem foldCall_stringLiteral (options : Options) (host : σ) :
    ∃ root, foldCall (resolution options lookup) (.var (literalName text)) [] ⟨host, .empty⟩ =
        (root, ⟨host, ⟨#[.string text]⟩⟩) ∧
      ∀ machine, root.evaluate machine = (.ok (Channel.handle 0), machine) := by
  have hbuiltIn : builtIn? options.logic (.var (literalName text)) =
      some (.stored (.string text) : Meaning σ ω) := builtIn?_stringLiteral _ text
  have hstored : (Meaning.stored (.string text) : Meaning σ ω) ⟨host, .empty⟩ =
      (.constant (Channel.handle 0), ⟨host, ⟨#[.string text]⟩⟩) := rfl
  unfold foldCall
  cases hunfolded : options.unfolded with
  | true =>
    -- without folding a built-in meaning is called, and it is a constant
    have hmeaning : impureMeaning? options lookup (.var (literalName text)) =
        some (.stored (.string text)) := by
      rw [impureMeaning?, himpure, hpure, hbuiltIn, hunfolded]
      rfl
    rw [resolution_impure?_of_some hmeaning, hstored]
    exact ⟨_, rfl, fun _ => rfl⟩
  | false =>
    have hmeaning : impureMeaning? options lookup (.var (literalName text)) = none := by
      rw [impureMeaning?, himpure, hunfolded]
      rfl
    -- with folding, the constant becomes a literal
    have hresolved : (resolution options lookup).pure (.var (literalName text)) ⟨host, .empty⟩ =
        (.constant (Channel.handle 0), ⟨host, ⟨#[.string text]⟩⟩) := by
      show pureMeaning options lookup (.var (literalName text)) ⟨host, .empty⟩ = _
      rw [pureMeaning, hpure, hbuiltIn]
      exact hstored
    rw [resolution_impure?_of_none hmeaning]
    have hkept : (resolution options lookup).replacement? (.var (literalName text)) [] = none := rfl
    simp only [hkept, hresolved]
    exact ⟨_, rfl, fun _ => rfl⟩

/-- **The contents are stored once**, and every evaluation yields them and changes nothing, whether
there is folding or not. -/
theorem compile_stringLiteral (options : Options) (host : σ) :
    ∃ expression machine,
      compile options lookup (.stringLiteral text) host = (expression, machine) ∧
      machine = ⟨host, ⟨#[.string text]⟩⟩ ∧
      ∀ current, current.table = machine.table →
        expression.run current = (.ok (.string text), current) := by
  obtain ⟨root, hfold, hevaluate⟩ := foldCall_stringLiteral himpure hpure options host
  have hcompile : compile options lookup (.stringLiteral text) host =
      (⟨root, 1, (Node.stringLiteral text).describe⟩, ⟨host, ⟨#[.string text]⟩⟩) := by
    have hroot : fold (resolution options lookup) (.stringLiteral text) ⟨host, .empty⟩ =
        (root, ⟨host, ⟨#[.string text]⟩⟩) := hfold
    unfold compile
    rw [hroot]
    rfl
  refine ⟨_, _, hcompile, rfl, ?_⟩
  rintro ⟨current, table⟩ rfl
  -- the text is the only entry, and no evaluation adds one
  have hload : (⟨#[.string text]⟩ : ValueTable ω).load (Channel.handle 0) = .string text :=
    ValueTable.load_handle (by decide)
  have hcut : (⟨#[.string text]⟩ : ValueTable ω).truncate 1 = ⟨#[.string text]⟩ :=
    ValueTable.truncate_of_le (le_refl _)
  unfold Expression.run
  rw [hevaluate]
  dsimp only
  rw [hcut, Except.map, hload]

end Evaluation

/-- **Quoting a text and evaluating it gives the text back.** Before any suffix, the literal is cut
off as one token, the text between apostrophes, and scanning goes on right behind it. The literal is
read as a variable of this name. It evaluates to the text, with and without folding, for every host
that does not define this variable, as one without any definitions. So no two texts are quoted
alike. -/
theorem quoted_spec [Host ω] :
    (∀ text suffix : Text, tokenize (quoted text ++ suffix) =
      (tokensFrom (quoted text).length suffix).map
        (⟨.identifier (39 :: (text ++ [39])), 0, false⟩ :: ·)) ∧
    (∀ text : Text, parse (quoted text) = .ok (.apply (.var (39 :: (text ++ [39]))) []) ∧
      ∀ (options : Options) (lookup : HostLookup σ ω) (host : σ),
        lookup.impure? (.var (39 :: (text ++ [39]))) = none →
        lookup.pure? (.var (39 :: (text ++ [39]))) = none →
        ∃ expression machine,
          compile options lookup (.apply (.var (39 :: (text ++ [39]))) []) host =
            (expression, machine) ∧
          machine = ⟨host, ⟨#[.string text]⟩⟩ ∧
          ∀ current, current.table = machine.table →
            expression.run current = (.ok (.string text), current)) ∧
    Function.Injective quoted := by
  refine ⟨fun text suffix => ?_, fun text => ⟨parse_quoted text, ?_⟩, quoted_injective⟩
  · have htokens := (standsFor_quoted text).tokensFrom_append (s := suffix) trivial 0
    rwa [Nat.zero_add] at htokens
  · intro options lookup host himpure hpure
    exact compile_stringLiteral himpure hpure options host

/-- An apostrophe, a backslash, a zero and a byte that is no UTF-8 are read back as the same name,
and evaluate to themselves without constants and symbols, with and without folding. -/
theorem quoted_spec_bytes :
    let text : Text := [39, 92, 0, 255]
    quoted text = utf8 "'\\'\\\\\\0" ++ [255, 39] ∧
      ∀ unfolded, ∃ node expression machine, parse (quoted text) = .ok node ∧
        compile ⟨true, true, unfolded⟩ (HostLookup.ofTables ⟨true, true, unfolded⟩ (fun _ => none)
          (fun _ => none) : HostLookup Unit Empty) node () = (expression, machine) ∧
        (expression.run machine).1 = .ok (.string text) := by
  intro text
  refine ⟨by decide, fun unfolded => ?_⟩
  obtain ⟨-, hread, -⟩ := quoted_spec (σ := Unit) (ω := Empty)
  obtain ⟨hparse, hevaluate⟩ := hread text
  obtain ⟨expression, machine, hcompile, -, hrun⟩ := hevaluate ⟨true, true, unfolded⟩
    (HostLookup.ofTables ⟨true, true, unfolded⟩ (fun _ => none) (fun _ => none)) () rfl rfl
  exact ⟨_, expression, machine, hparse, hcompile, congrArg Prod.fst (hrun machine rfl)⟩

end DynExpr
