import Lalr.Diagnostic

namespace Lalr

structure Unused where
  terminals : List TerminalId
  nonterminals : List NonterminalId

/-- The symbols that no production mentions.  The reserved terminals need not be used. -/
def Grammar.unused (g : Grammar) : Unused where
  terminals := (g.terminals.toList.filter fun t =>
    t.uses == 0 && t.id != .eof && t.id != .error).map (·.id)
  nonterminals := (g.nonterminals.toList.filter fun n => n.uses == 0).map (·.id)

def Unused.reports (u : Unused) : List Diagnostic :=
  u.terminals.map .unusedTerminal ++ u.nonterminals.map .unusedNonterminal

def Grammar.checkUnused {σ : Type} [DiagnosticSink σ] (g : Grammar) (quiet : Bool) (sink : σ) :
    Unused × σ :=
  let unused := g.unused
  (unused, if quiet then sink else DiagnosticSink.reportAll sink unused.reports)

end Lalr
