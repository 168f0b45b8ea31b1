import Lalr.Symbol

namespace Lalr

inductive Malformation where
  | endOfInput (place : String)
  | negativeLength
  | stateRange
  | startProductionRange
  | startStateRange
  | reduceRange
  | symbolRange
  | productionRange
  | rowLength
  | unterminatedRow
  | unterminatedActions
  | unterminatedGotos
  | trailingWords
  | described (reason : String)
  deriving DecidableEq

def Malformation.message : Malformation → String
  | endOfInput place => "unexpected end of input while reading " ++ place
  | negativeLength => "negative length"
  | stateRange => "state index out of range"
  | startProductionRange => "start production out of range"
  | startStateRange => "start state out of range"
  | reduceRange => "reduce code out of range"
  | symbolRange => "symbol index out of range"
  | productionRange => "production index out of range"
  | rowLength => "row length must be a positive even number"
  | unterminatedRow => "row without terminator"
  | unterminatedActions => "action row without terminator"
  | unterminatedGotos => "reduce row without terminator"
  | trailingWords => "trailing words after the last row"
  | described reason => reason

inductive Violation where
  | emptyKernel
  | duplicateState (existing : StateId)
  | danglingLink (source target : StateId)
  | shiftAtEnd (production : ProductionId)
  | bogusResolution (state : StateId) (terminal : TerminalId)
  | unknownProduction (production : ProductionId)
  | tooManyStates
  | unknownState (state : StateId)
  | malformedTable (fault : Malformation)
  deriving DecidableEq

def Violation.message : Violation → String
  | emptyKernel => "attempt to construct an LALR state from an empty kernel"
  | duplicateState existing =>
    "attempt to construct a duplicate LALR state (kernel already owned by " ++ existing.label ++ ")"
  | danglingLink source target =>
    "propagation link from " ++ source.label ++ " has no matching item in " ++ target.label
  | shiftAtEnd production =>
    "attempt to shift past the end of production " ++ production.label
  | bogusResolution state terminal =>
    "conflict resolution of bogus actions in " ++ state.label ++ " under " ++ terminal.label
  | unknownProduction production => "unknown production " ++ production.label
  | tooManyStates => "the number of states exceeds the representable range"
  | unknownState state => "unknown state " ++ state.label
  | malformedTable fault => "malformed packed table: " ++ fault.message

end Lalr
