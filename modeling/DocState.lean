import DocState.Argument.Prepared
import DocState.Argument.Scanner
import DocState.Argument.Supply
import DocState.Command
import DocState.Command.Change
import DocState.Command.Execution
import DocState.Command.Procedure
import DocState.Command.Report
import DocState.Command.Test
import DocState.CommandLine
import DocState.Counters
import DocState.Decimal
import DocState.Double.Exact
import DocState.Double.Literal
import DocState.Double.Shortest
import DocState.Error
import DocState.Expansion
import DocState.Expression.Integer
import DocState.Expression.Postfix
import DocState.Expression.Token
import DocState.FlagSpace
import DocState.Flags
import DocState.Lists
import DocState.Main
import DocState.Memory
import DocState.Name
import DocState.Number
import DocState.Numeral
import DocState.Relation
import DocState.Separated
import DocState.Session
import DocState.Table
import DocState.Text
import DocState.Update
import DocState.Proofs.Links
import DocState.Proofs.Counters.Changes
import DocState.Proofs.Counters.WellFormed
import DocState.Proofs.Counters.Recursion
import DocState.Proofs.Counters.Cascade
import DocState.Proofs.Counters.History
import DocState.Proofs.Counters.Rewiring
import DocState.Proofs.Counters.Rendering
import DocState.Proofs.Counters.Exchange
import DocState.Proofs.Counters.Creation
import DocState.Proofs.Expression.Infix
import DocState.Proofs.Expression.Arrangement
import DocState.Proofs.Expression.Deferral
import DocState.Proofs.Expression.Conservation
import DocState.Proofs.Expression.Recognition
import DocState.Proofs.Refusal.Stores
import DocState.Proofs.Refusal.Commands
import DocState.Proofs.Braces
import DocState.Proofs.Separated.Division
import DocState.Proofs.Separated.Joining
import DocState.Proofs.Readback.Scanning
import DocState.Proofs.Separated.Agreement
import DocState.Proofs.Readback.Arguments
import DocState.Proofs.Readback.Spelling
import DocState.Proofs.Readback.Parsers
import DocState.Proofs.Maintained
import DocState.Proofs.Readback.Loops
import DocState.Proofs.Lockstep.Commands
import DocState.Proofs.Lockstep.NameChecks
import DocState.Proofs.Lockstep.Sources
import DocState.Proofs.Commands.Reading
import DocState.Proofs.Commands.Resolution
import DocState.Proofs.Commands.Comparisons
import DocState.Proofs.Readback.CounterNames
import DocState.Proofs.Effects.Stores
import DocState.Proofs.Effects.Commands
import DocState.Proofs.Effects.ValidNames
import DocState.Proofs.Commands.Declarations
import DocState.Proofs.Double.Packing
import DocState.Proofs.Double.Rounding
import DocState.Proofs.Double.Integers
import DocState.Proofs.Decimals.Reading
import DocState.Proofs.Decimals.Leading
import DocState.Proofs.Decimals.Commands
import DocState.Proofs.Consumption
import DocState.Proofs.Flags.History
import DocState.Proofs.Lists.Reference
import DocState.Proofs.Expression.Substitution
import DocState.Proofs.Expression.Signs
import DocState.Proofs.Expression.Faults
import DocState.Proofs.Double.Arithmetic
import DocState.Proofs.Expression.Whole
import DocState.Proofs.Expression.Conversion
import DocState.Proofs.Numerals.Roman
import DocState.Proofs.Numerals.Rounds
import DocState.Proofs.Commands.Formats
