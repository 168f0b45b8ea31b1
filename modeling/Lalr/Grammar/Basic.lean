import Lalr.Precedence
import Lalr.IdentSet

namespace Lalr

/-- A position of a right side: a symbol, and the name by which an action refers to its value. -/
structure Part where
  symbol : Symbol
  label : Option String := none
  deriving DecidableEq

/-- An element of a rule as it is declared.  Actions may stand anywhere. -/
inductive RulePart where
  | symbol (part : Part)
  | action (code : String)
  deriving DecidableEq

/-- Where a production comes from: it was declared, or it is the empty production that hosts an
action from the middle of `base`.  The host takes position `offset` of the right side of `base`, so
`offset` values lie below it on the stack. -/
inductive Origin where
  | declared
  | embedded (base : ProductionId) (offset : Nat)
  deriving DecidableEq

structure TerminalDecl where
  id : TerminalId
  name : String
  valueType : Option String
  precedence : Option Precedence

structure NonterminalDecl where
  id : NonterminalId
  name : String
  valueType : Option String
  /-- Whether this symbol was made to host an action from the middle of a rule. -/
  hidden : Bool

structure Rule where
  id : ProductionId
  lhs : NonterminalId
  rhs : Array Part
  action : Option String
  precedence : Option Precedence
  origin : Origin

structure Terminal extends TerminalDecl where
  uses : Nat

structure Nonterminal extends NonterminalDecl where
  nullable : Bool
  first : TerminalSet
  /-- The productions with this symbol on the left, in the order of their numbers. -/
  productions : List ProductionId
  uses : Nat

structure Production extends Rule where
  nullable : Bool
  first : TerminalSet

namespace Rule

def length (r : Rule) : Nat := r.rhs.size

def symbolAt (r : Rule) (pos : Nat) : Option Symbol :=
  r.rhs[pos]?.map Part.symbol

end Rule

structure Grammar where
  terminals : Array Terminal
  nonterminals : Array Nonterminal
  productions : Array Production
  start : NonterminalId

namespace Grammar

def terminal? (g : Grammar) (t : TerminalId) : Option Terminal :=
  g.terminals[t.index]?

def nonterminal? (g : Grammar) (n : NonterminalId) : Option Nonterminal :=
  g.nonterminals[n.index]?

def production? (g : Grammar) (p : ProductionId) : Option Production :=
  g.productions[p.index]?

def terminalNamed? (g : Grammar) (name : String) : Option TerminalId :=
  (g.terminals.find? (·.name == name)).map (·.id)

def nonterminalNamed? (g : Grammar) (name : String) : Option NonterminalId :=
  (g.nonterminals.find? (·.name == name)).map (·.id)

def symbolName? (g : Grammar) : Symbol → Option String
  | .terminal t => (g.terminal? t).map (·.name)
  | .nonterminal n => (g.nonterminal? n).map (·.name)

def productionsOf (g : Grammar) (n : NonterminalId) : List ProductionId :=
  (g.nonterminal? n).elim [] (·.productions)

def isNullable (g : Grammar) (n : NonterminalId) : Bool :=
  (g.nonterminal? n).elim false (·.nullable)

def firstSet (g : Grammar) (n : NonterminalId) : TerminalSet :=
  (g.nonterminal? n).elim ∅ (·.first)

end Grammar

end Lalr
