import DocState.FlagSpace

/-!
# Errors

* `Error`: the causes for which a command, a store, the evaluator or the splitter refuses its input, each
  with the name or text at fault.
* `Error.message`: the wording shown to the user. Names and texts are shown as they are, without escapes.
* `Error.identifier`: the identifier of the cause, for a host that reports errors by name.
-/

namespace DocState

/-- Why an operation was refused. `command` is the calling command with its backslash. -/
inductive Error
  | undefinedCounter (name : Text)
  | duplicateCounter (name : Text)
  /-- With this link `counter` would be reset, or displayed, through itself. -/
  | counterCycle (counter within : Text)
  | undefinedFlag (space : FlagSpace) (name : Text)
  | duplicateFlag (space : FlagSpace) (name : Text)
  | invalidFlagValue (text : Text)
  | undefinedList (name : Text)
  | duplicateList (name : Text)
  | illegalName (command name : Text)
  | missingControlSequence (command : Text)
  | mismatchedParentheses (text : Text)
  | invalidExpression (text : Text)
  | invalidNumber (text : Text)
  | extraCloseBrace (text : Text)
  | missingCloseBrace (text : Text)
  | invalidRelation (symbol : Text)
  | invalidArgumentOrder (command : Text)
  | unknownCommand (command : Text)
  | missingArgument (command : Text)
deriving DecidableEq, Repr

namespace Error

/-- A name or text between quotation marks. -/
def quoted (t : Text) : Text := '"' :: t ++ ['"']

/-- The message of an error. -/
def message : Error → Text
  | undefinedCounter name => "Undefined counter ".toList ++ quoted name
  | duplicateCounter name => "Counter ".toList ++ quoted name ++ " already defined".toList
  | counterCycle counter within =>
    "Counter ".toList ++ quoted counter ++ " cannot be reset by ".toList ++ quoted within ++
      ": cyclic reset chain".toList
  | undefinedFlag space name => "Undefined ".toList ++ space.text ++ [' '] ++ quoted name
  | duplicateFlag space name => space.text ++ [' '] ++ quoted name ++ " already defined".toList
  | invalidFlagValue text => "Invalid boolean value ".toList ++ quoted text
  | undefinedList name => "Undefined list ".toList ++ quoted name
  | duplicateList name => "List ".toList ++ quoted name ++ " already defined".toList
  | illegalName command name =>
    "Illegal control sequence name ".toList ++ quoted name ++ " for ".toList ++ command
  | missingControlSequence command => command ++ " must be given a control sequence".toList
  | mismatchedParentheses text => "Mismatched parentheses in ".toList ++ quoted text
  | invalidExpression text => "Invalid expression ".toList ++ quoted text
  | invalidNumber text => "Invalid number ".toList ++ quoted text
  | extraCloseBrace text => "Extra close brace in ".toList ++ quoted text
  | missingCloseBrace text => "Missing close brace in ".toList ++ quoted text
  | invalidRelation symbol => "Invalid relation: ".toList ++ symbol
  | invalidArgumentOrder command => command ++ ": counter name must come before optional argument".toList
  | unknownCommand command => "Undefined control sequence ".toList ++ command
  | missingArgument command => "Missing argument for ".toList ++ command

/-- The identifier of an error. The two flag namespaces share theirs, and so do all bad flag values. -/
def identifier : Error → Text
  | undefinedCounter _ => "UndefinedCounter".toList
  | duplicateCounter _ => "DuplicateCounter".toList
  | counterCycle _ _ => "CounterCycle".toList
  | undefinedFlag _ _ => "UndefinedFlag".toList
  | duplicateFlag _ _ => "DuplicateFlag".toList
  | invalidFlagValue _ => "InvalidFlag".toList
  | undefinedList _ => "UndefinedList".toList
  | duplicateList _ => "DuplicateList".toList
  | illegalName _ _ => "IllegalControlSequenceName".toList
  | missingControlSequence _ => "MissingControlSequence".toList
  | mismatchedParentheses _ => "MismatchedParentheses".toList
  | invalidExpression _ => "InvalidExpression".toList
  | invalidNumber _ => "InvalidNumber".toList
  | extraCloseBrace _ => "ExtraCloseBrace".toList
  | missingCloseBrace _ => "MissingCloseBrace".toList
  | invalidRelation _ => "InvalidRelation".toList
  | invalidArgumentOrder _ => "InvalidArgumentOrder".toList
  | unknownCommand _ => "UnknownCommand".toList
  | missingArgument _ => "MissingArgument".toList

end Error

end DocState
