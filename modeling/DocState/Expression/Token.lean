import DocState.Double.Literal
import DocState.Error

/-!
# Tokens of arithmetic expressions

An expression is read in two steps. Its characters, without the blanks, form lexemes: the six marks
`+ - * / ( )` one by one, and literals, the longest runs of other characters. The lexemes then become tokens:
where an operand may begin, a run of signs is not addition or subtraction but a sign of the operand, and is
worth one unary minus if it has an odd number of minus signs and nothing otherwise.

* `Expression.Lexeme.ofText`: the lexemes of a text.
* `Expression.assemble`: the tokens of lexemes.
* `Expression.tokens`: the tokens of a text.
-/

namespace DocState.Expression

/-- The characters that separate literals. -/
inductive Mark
  | plus
  | minus
  | times
  | over
  | opening
  | closing
deriving DecidableEq, Repr

/-- The mark that a character is. -/
def Mark.ofChar? : Char → Option Mark
  | '+' => some .plus
  | '-' => some .minus
  | '*' => some .times
  | '/' => some .over
  | '(' => some .opening
  | ')' => some .closing
  | _ => none

/-- A mark or a literal. -/
inductive Lexeme
  | mark (m : Mark)
  | literal (text : Text)
deriving DecidableEq, Repr

namespace Lexeme

/-- Puts a character in front of the literal that follows, or makes it a literal of its own. -/
def extend (c : Char) : List Lexeme → List Lexeme
  | .literal text :: rest => .literal (c :: text) :: rest
  | rest => .literal [c] :: rest

/-- The lexemes of a text without blanks. -/
def ofText : Text → List Lexeme
  | [] => []
  | c :: rest =>
    match Mark.ofChar? c with
    | some m => .mark m :: ofText rest
    | none => extend c (ofText rest)

end Lexeme

/-- The operations with two operands. -/
inductive BinaryOp
  | add
  | sub
  | mul
  | div
deriving DecidableEq, Repr

/-- The operations: with two operands, or the unary minus. -/
inductive Operator
  | binary (op : BinaryOp)
  | negate
deriving DecidableEq, Repr

/-- A token of an expression. -/
inductive Token
  | number (x : Float)
  | operator (op : Operator)
  | opening
  | closing
deriving DecidableEq

/-- What a reader of lexemes has just seen. -/
inductive Place
  /-- An operand may begin: the start, a binary operation or an opening parenthesis came before, and since
  then only signs, an odd number of them minus signs or not. -/
  | operand (odd : Bool)
  /-- An operand has ended: a literal or a closing parenthesis came before. -/
  | operation
deriving DecidableEq, Repr

/-- The sign of the operand that begins at a place. -/
def Place.sign : Place → List Token
  | .operand true => [.operator .negate]
  | _ => []

/-- The finite double that a literal denotes. -/
def literalValue (literal : Text) : Except Error Float :=
  match Double.ofLiteral? literal with
  | some x => .ok x
  | none => .error (.invalidNumber literal)

/-- The tokens of lexemes, read from a place on. The first literal that denotes no number is an error. -/
def assemble : Place → List Lexeme → Except Error (List Token)
  | place, [] => .ok place.sign
  | .operand odd, .mark .plus :: rest => assemble (.operand odd) rest
  | .operand odd, .mark .minus :: rest => assemble (.operand (!odd)) rest
  | .operation, .mark .plus :: rest =>
    (.operator (.binary .add) :: ·) <$> assemble (.operand false) rest
  | .operation, .mark .minus :: rest =>
    (.operator (.binary .sub) :: ·) <$> assemble (.operand false) rest
  | place, .mark .times :: rest =>
    (place.sign ++ .operator (.binary .mul) :: ·) <$> assemble (.operand false) rest
  | place, .mark .over :: rest =>
    (place.sign ++ .operator (.binary .div) :: ·) <$> assemble (.operand false) rest
  | place, .mark .opening :: rest => (place.sign ++ .opening :: ·) <$> assemble (.operand false) rest
  | place, .mark .closing :: rest => (place.sign ++ .closing :: ·) <$> assemble .operation rest
  | place, .literal text :: rest => do
    let x ← literalValue text
    (place.sign ++ .number x :: ·) <$> assemble .operation rest

/-- The tokens of a text. Blanks do not separate: `1 2` is the literal `12`. -/
def tokens (text : Text) : Except Error (List Token) :=
  assemble (.operand false) (Lexeme.ofText text.withoutBlanks)

end DocState.Expression
