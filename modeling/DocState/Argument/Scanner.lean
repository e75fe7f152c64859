import DocState.Argument.Supply

/-!
# Arguments in document text

A `Scanner` reads arguments from text: a mandatory argument is a group in braces or else a single token, an
optional argument is a group in square brackets. Blanks in front of an argument are skipped, and stay skipped
if the reading fails.

* `Scanner.group?`: the rest of a group and what follows it.
* `Scanner.token?`: a single token and what follows it.
* `Scanner`: the text not read yet, as a source of arguments.
-/

namespace DocState

/-- A text that is being read for arguments. -/
structure Scanner where
  /-- The text not read yet. -/
  unread : Text
deriving DecidableEq, Repr

namespace Scanner

/-- Splits the inside of a group at the delimiter that closes it: its content, and what follows the delimiter.
`depth` further groups are open. A character after a backslash is never a delimiter. None if the group is not
closed. -/
def group? (opening closing : Char) : Nat → Text → Option (Text × Text)
  | _, [] => none
  | depth, '\\' :: c :: rest =>
    (group? opening closing depth rest).map fun (content, after) => ('\\' :: c :: content, after)
  | depth, c :: rest =>
    if c = opening then
      (group? opening closing (depth + 1) rest).map fun (content, after) => (c :: content, after)
    else if c = closing then
      match depth with
      | 0 => some ([], rest)
      | depth + 1 => (group? opening closing depth rest).map fun (content, after) => (c :: content, after)
    else (group? opening closing depth rest).map fun (content, after) => (c :: content, after)

/-- The token at the start of a text and what follows it: a backslash with the longest run of letters or else
with one other character, or a single character. A backslash at the end is a token. -/
def token? : Text → Option (Text × Text)
  | [] => none
  | '\\' :: c :: rest =>
    if c.isAlpha then some ('\\' :: c :: rest.takeWhile Char.isAlpha, rest.dropWhile Char.isAlpha)
    else some (['\\', c], rest)
  | c :: rest => some ([c], rest)

/-- Reads a group in braces or a token. -/
def mandatory (command : Text) (s : Scanner) : Except Error Text × Scanner :=
  let rest := s.unread.trimLeft
  match rest with
  | '{' :: inside =>
    match group? '{' '}' 0 inside with
    | some (content, after) => (.ok content, ⟨after⟩)
    | none => (.error (.missingCloseBrace rest), ⟨rest⟩)
  | _ =>
    match token? rest with
    | some (token, after) => (.ok token, ⟨after⟩)
    | none => (.error (.missingArgument command), ⟨rest⟩)

/-- Reads a group in square brackets if an opening bracket comes next. -/
def optional (command fallback : Text) (s : Scanner) : Except Error Text × Scanner :=
  let rest := s.unread.trimLeft
  match rest with
  | '[' :: inside =>
    match group? '[' ']' 0 inside with
    | some (content, after) => (.ok content, ⟨after⟩)
    | none => (.error (.missingArgument command), ⟨rest⟩)
  | _ => (.ok fallback, ⟨rest⟩)

/-- Reads a star if it comes next. -/
def star (s : Scanner) : Bool × Scanner :=
  match s.unread.trimLeft with
  | '*' :: after => (true, ⟨after⟩)
  | rest => (false, ⟨rest⟩)

instance : ArgumentSupply Scanner := ⟨mandatory, optional, star⟩

end Scanner

end DocState
