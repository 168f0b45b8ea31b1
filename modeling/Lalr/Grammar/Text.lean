import Lalr.Grammar.Basic

namespace Lalr

def TerminalSet.text (g : Grammar) (s : TerminalSet) : Option String := do
  let names ← s.toList.mapM fun t => g.symbolName? (.terminal t)
  return "\x7b" ++ ", ".intercalate names ++ "\x7d"

/-- A production as it would be written in a grammar; an empty right side shows as a letter. -/
def Production.text (g : Grammar) (p : Production) : Option String := do
  let lhs ← g.symbolName? (.nonterminal p.lhs)
  let names ← p.rhs.toList.mapM fun part => g.symbolName? part.symbol
  return lhs ++ " ::= " ++ (if names.isEmpty then "ε" else " ".intercalate names)

namespace Grammar

def terminalLine (t : Terminal) : String :=
  "- [" ++ toString t.id.index ++ "] " ++ t.name
    ++ t.valueType.elim "" (" <" ++ · ++ ">")
    ++ t.precedence.elim "" fun p =>
      " (priority = " ++ toString p.priority ++ ", assoc = " ++ p.associativity.word ++ ")"

def nonterminalLine (g : Grammar) (n : Nonterminal) : Option String := do
  let first ← n.first.text g
  return "- [" ++ toString n.id.index ++ "] " ++ n.name
    ++ n.valueType.elim "" (" <" ++ · ++ ">")
    ++ (if n.nullable then " (nullable)" else "")
    ++ " first = " ++ first

def productionLine (g : Grammar) (p : Production) : Option String := do
  let text ← p.text g
  return "- [" ++ toString p.id.index ++ "] " ++ text
    ++ match p.origin with
      | .declared => ""
      | .embedded base offset =>
        " (embedded in [" ++ toString base.index ++ "] at " ++ toString offset ++ ")"

def text (g : Grammar) : Option String := do
  let nonterminals ← g.nonterminals.toList.mapM g.nonterminalLine
  let productions ← g.productions.toList.mapM g.productionLine
  return Text.lines <|
    "#### terminals:" :: g.terminals.toList.map terminalLine
    ++ "#### nonterminals:" :: nonterminals
    ++ "#### productions:" :: productions

end Grammar

end Lalr
