import Lalr.Automaton.Propagation
import Lalr.Automaton.Text
import Lalr.Packed.Basic
import Lalr.Table.Filling
import Lalr.Table.Text
import Lalr.Usage

namespace Lalr

structure Config where
  /-- The number of conflicts that the grammar is known to have. -/
  expectedConflicts : Nat := 0
  /-- Whether every row gets its most frequent reduction as a default. -/
  compact : Bool := false
  /-- Whether unused symbols and productions are left out of the reports. -/
  quiet : Bool := false

structure Summary where
  terminals : Nat
  nonterminals : Nat
  productions : Nat
  states : Nat
  unusedTerminals : List TerminalId
  unusedNonterminals : List NonterminalId
  unreduced : List ProductionId
  counts : ConflictCounts
  expectedConflicts : Nat
  errors : Nat
  warnings : Nat

namespace Summary

/-- A number of things, each called `noun`. -/
def counted (n : Nat) (noun : String) : String :=
  toString n ++ " " ++ noun ++ Text.plural n

def text (s : Summary) : String :=
  "\n".intercalate [
    "  " ++ counted s.errors "error" ++ " and " ++ counted s.warnings "warning",
    "  " ++ counted s.terminals "terminal" ++ ", " ++ counted s.nonterminals "non-terminal"
      ++ ", and " ++ counted s.productions "production" ++ " declared, ",
    "  producing " ++ toString s.states ++ " unique parse states.",
    "  " ++ counted s.unusedTerminals.length "terminal" ++ " declared but not used.",
    "  " ++ counted s.unusedNonterminals.length "non-terminal" ++ " declared but not used.",
    "  " ++ counted s.unreduced.length "production" ++ " never reduced.",
    "  " ++ counted s.counts.conflicts "conflict" ++ " detected ("
      ++ toString s.expectedConflicts ++ " expected)."]

end Summary

/-- Finished tables and what they were made from. -/
structure Generated where
  actions : ActionTable
  gotos : GotoTable
  automaton : Automaton
  summary : Summary

namespace Generated

/-- Whether the tables may be used, that is, whether nothing of error severity was reported. -/
def isEmittable (generated : Generated) : Bool :=
  generated.summary.errors == 0

def pack (generated : Generated) : Except Violation PackedTables :=
  PackedTables.pack generated.actions generated.gotos .start .start

def text (g : Grammar) (generated : Generated) : Option String := do
  return "\n".intercalate [
    ← g.text, ← generated.automaton.text g, ← generated.actions.text g, ← generated.gotos.text g]

end Generated

/-- A sink that counts the problems it passes on. -/
structure CountingSink where
  inner : Diagnostics
  warnings : Nat := 0
  errors : Nat := 0

namespace CountingSink

def report (sink : CountingSink) (entry : Diagnostic) : CountingSink :=
  let sink := match entry.severity with
    | .note => sink
    | .warning => { sink with warnings := sink.warnings + 1 }
    | .error => { sink with errors := sink.errors + 1 }
  { sink with inner := sink.inner.report entry }

def fatal (sink : CountingSink) (e : Violation) : CountingSink :=
  { sink with errors := sink.errors + 1, inner := sink.inner.fatal e }

instance : DiagnosticSink CountingSink := ⟨report, fatal⟩

end CountingSink

namespace Config

/-- The reports about the finished tables: productions that they never reduce by, and too many
conflicts. -/
def closingReports (config : Config) (unreduced : List ProductionId) (counts : ConflictCounts) :
    List Diagnostic :=
  (if config.quiet then [] else unreduced.map .unreduced)
  ++ if config.expectedConflicts < counts.conflicts then
      [.tooManyConflicts config.expectedConflicts counts.conflicts]
    else []

/-- Makes the tables of a grammar, while the sink counts what it is told for the summary. -/
def run (config : Config) (g : Grammar) (sink : CountingSink) :
    Attempt FillError CountingSink Generated :=
  let (unused, sink) := g.checkUnused config.quiet sink
  match Automaton.build g with
  | .error e => .fail (.violation e) sink
  | .ok automaton =>
    match Tables.fill g automaton sink with
    | ⟨.error e, sink⟩ => .fail e sink
    | ⟨.ok tables, sink⟩ =>
      let actions := if config.compact then tables.actions.compact else tables.actions
      let unreduced := actions.unreduced g
      let sink := DiagnosticSink.reportAll sink (config.closingReports unreduced tables.counts)
      .succeed
        { actions
          gotos := tables.gotos
          automaton
          summary := {
            terminals := g.terminals.size
            nonterminals := g.nonterminals.size
            productions := g.productions.size
            states := automaton.states.size
            unusedTerminals := unused.terminals
            unusedNonterminals := unused.nonterminals
            unreduced
            counts := tables.counts
            expectedConflicts := config.expectedConflicts
            errors := sink.errors
            warnings := sink.warnings } }
        sink

/-- Makes the tables of a grammar.  Problems of the grammar are reported and stop nothing; a violated
invariant is noted as such. -/
def generate (config : Config) (g : Grammar) (sink : Diagnostics) :
    Attempt FillError Diagnostics Generated :=
  match config.run g { inner := sink } with
  | ⟨.ok generated, counting⟩ => .succeed generated counting.inner
  | ⟨.error e, counting⟩ =>
    .fail e <| match e with
      | .violation v => counting.inner.fatal v
      | .undeclared _ => counting.inner

end Config

end Lalr
