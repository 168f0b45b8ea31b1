import Lalr.Attempt
import Lalr.Grammar.Basic
import Lalr.Grammar.Roster

/-!
Grammars under definition.  Declarations are made one after the other on a draft; one that fails
says why, and the next is made on whatever it left behind.  A draft numbers its entries in the order
in which they were declared.
-/

namespace Lalr

inductive DefinitionError where
  | duplicateTerminal (name : String)
  | duplicateNonterminal (name : String)
  | duplicateRule (lhs : String)
  | unknownSymbol (symbol : Symbol)
  | noStartSymbol
  | emptyGrammar
  | tooManySymbols
  | tooManyProductions
  | tooManyLevels
  | aborted (reason : String)
  deriving DecidableEq

def DefinitionError.message : DefinitionError → String
  | duplicateTerminal name => "the terminal `" ++ name ++ "' has already been declared"
  | duplicateNonterminal name => "the nonterminal `" ++ name ++ "' has already been declared"
  | duplicateRule lhs => "duplicate production rule detected for `" ++ lhs ++ "'"
  | unknownSymbol symbol => "the symbol " ++ symbol.label ++ " is not declared in this grammar"
  | noStartSymbol => "the start symbol is not specified and no nonterminal is declared"
  | emptyGrammar => "the grammar has no production rules"
  | tooManySymbols => "too many symbols declared"
  | tooManyProductions => "too many production rules declared"
  | tooManyLevels => "Other error: too many precedence levels"
  | aborted reason => "Other error: " ++ reason

structure UseCounts where
  terminals : Array Nat
  nonterminals : Array Nat

namespace UseCounts

def addTerminal (u : UseCounts) : UseCounts :=
  { u with terminals := u.terminals.push 0 }

def addNonterminal (u : UseCounts) : UseCounts :=
  { u with nonterminals := u.nonterminals.push 0 }

def note (u : UseCounts) : Symbol → UseCounts
  | .terminal t => { u with terminals := u.terminals.modify t.index (· + 1) }
  | .nonterminal n => { u with nonterminals := u.nonterminals.modify n.index (· + 1) }

/-- A rule uses the symbol on its left once, and those on its right as often as they occur. -/
def noteRule (u : UseCounts) (r : Rule) : UseCounts :=
  r.rhs.foldl (fun u part => u.note part.symbol) (u.note (.nonterminal r.lhs))

end UseCounts

/-- The declarations made so far.  The start production is added when the definition ends; the
number zero is kept free for it. -/
structure Draft where
  terminals : Roster TerminalDecl (·.name)
  nonterminals : Roster NonterminalDecl (·.name)
  rules : Array Rule
  uses : UseCounts
  start : Option NonterminalId
  /-- How many actions have been moved into productions of their own. -/
  embedded : Nat
  nextLevel : Nat

/-- The number after `count` others, for kinds that never use their last number. -/
def Ident.next? (kind : Kind) (count : Nat) : Option (Ident kind) :=
  if h : count < 65535 then some ⟨count, by omega⟩ else none

namespace RulePart

/-- Joins actions that stand side by side: they run as one, a line each. -/
def joinActions (parts : List RulePart) : List RulePart :=
  go [] parts
where
  -- `done` holds the elements before, last one first.
  go (done : List RulePart) : List RulePart → List RulePart
    | [] => done.reverse
    | .symbol part :: rest => go (.symbol part :: done) rest
    | .action code :: rest =>
      match done with
      | .action before :: done => go (.action (before ++ "\n" ++ code) :: done) rest
      | done => go (.action code :: done) rest

def isAction : RulePart → Bool
  | action _ => true
  | symbol _ => false

def part? : RulePart → Option Part
  | symbol part => some part
  | action _ => none

end RulePart

namespace Draft

def initial : Draft where
  terminals := (Roster.empty.push ⟨.eof, "EOF", none, none⟩).push ⟨.error, "error", none, none⟩
  nonterminals := Roster.empty.push ⟨.start, "$START", none, false⟩
  rules := #[]
  uses := ⟨#[0, 0], #[0]⟩
  start := none
  embedded := 0
  nextLevel := 1

abbrev Step (α : Type) := Attempt DefinitionError Draft α

def declares (d : Draft) : Symbol → Bool
  | .terminal t => t.index < d.terminals.size
  | .nonterminal n => n.index < d.nonterminals.size

def declareTerminal (d : Draft) (name : String) (precedence : Option Precedence) :
    Step TerminalId :=
  if d.terminals.uses name then .fail (.duplicateTerminal name) d
  else match Ident.next? .terminal d.terminals.size with
    | none => .fail .tooManySymbols d
    | some id =>
      .succeed id { d with
        terminals := d.terminals.push ⟨id, name, none, precedence⟩
        uses := d.uses.addTerminal }

/-- Adds a nonterminal without asking whether its name is free. -/
def addNonterminal (d : Draft) (name : String) (valueType : Option String) (hidden : Bool) :
    Step NonterminalId :=
  match Ident.next? .nonterminal d.nonterminals.size with
  | none => .fail .tooManySymbols d
  | some id =>
    .succeed id { d with
      nonterminals := d.nonterminals.push ⟨id, name, valueType, hidden⟩
      uses := d.uses.addNonterminal }

def declareNonterminal (d : Draft) (name : String) : Step NonterminalId :=
  if d.nonterminals.uses name then .fail (.duplicateNonterminal name) d
  else d.addNonterminal name none false

def declareType (d : Draft) (symbol : Symbol) (type : String) : Step Unit :=
  if d.declares symbol then
    .succeed () <| match symbol with
      | .terminal t =>
        { d with
          terminals := d.terminals.modify t.index ({ · with valueType := some type }) fun _ => rfl }
      | .nonterminal n =>
        { d with
          nonterminals :=
            d.nonterminals.modify n.index ({ · with valueType := some type }) fun _ => rfl }
  else .fail (.unknownSymbol symbol) d

/-- Gives the terminals `ts` the precedence `p`, up to the first that is not declared. -/
def assignPrecedence (p : Precedence) : Draft → List TerminalId → Step Unit
  | d, [] => .succeed () d
  | d, t :: ts =>
    if d.declares (.terminal t) then
      assignPrecedence p
        { d with
          terminals := d.terminals.modify t.index ({ · with precedence := some p }) fun _ => rfl }
        ts
    else .fail (.unknownSymbol (.terminal t)) d

/-- Opens a level that binds tighter than those before it, and puts the terminals `ts` on it. -/
def declareLevel (d : Draft) (associativity : Associativity) (ts : List TerminalId) : Step Unit :=
  if d.nextLevel < 65535 then
    assignPrecedence ⟨d.nextLevel, associativity⟩ { d with nextLevel := d.nextLevel + 1 } ts
  else .fail .tooManyLevels d

/-- Adds a rule; its number is one more than the count of the rules before it, as the start
production comes first. -/
def addRule (d : Draft) (lhs : NonterminalId) (rhs : Array Part) (action : Option String)
    (precedence : Option Precedence) (origin : Origin) : Step ProductionId :=
  match Ident.next? .production (d.rules.size + 1) with
  | none => .fail .tooManyProductions d
  | some id =>
    let rule : Rule := ⟨id, lhs, rhs, action, precedence, origin⟩
    .succeed id { d with rules := d.rules.push rule, uses := d.uses.noteRule rule }

/-- Makes a hidden nonterminal whose only production is empty and runs `code`. -/
def hostAction (d : Draft) (base : ProductionId) (valueType : Option String) (offset : Nat)
    (code : String) : Step NonterminalId :=
  (d.addNonterminal ("NT$" ++ toString d.embedded) valueType true).andThen fun n d =>
    ({ d with embedded := d.embedded + 1 }.addRule n #[] (some code) none
      (.embedded base offset)).map fun _ => n

/-- The right side of `base`, whose positions so far are `rhs`: symbols stay as they are, and a
hidden nonterminal takes the place of each action. -/
def hostActions (base : ProductionId) (valueType : Option String) :
    Draft → Array Part → List RulePart → Step (Array Part)
  | d, rhs, [] => .succeed rhs d
  | d, rhs, .symbol part :: rest => hostActions base valueType d (rhs.push part) rest
  | d, rhs, .action code :: rest =>
    match d.hostAction base valueType rhs.size code with
    | ⟨.ok n, d⟩ => hostActions base valueType d (rhs.push ⟨.nonterminal n, none⟩) rest
    | ⟨.error e, d⟩ => .fail e d

/-- Splits off the action at the end, which becomes that of the production itself. -/
def splitAction (parts : List RulePart) : List RulePart × Option String :=
  match parts.getLast? with
  | some (.action code) => (parts.dropLast, some code)
  | _ => (parts, none)

def hasRule (d : Draft) (lhs : NonterminalId) (symbols : Array Symbol) : Bool :=
  d.rules.any fun r => r.lhs == lhs && r.rhs.map (·.symbol) == symbols

def undeclared? (d : Draft) (parts : List RulePart) : Option Symbol :=
  (parts.findSome? fun p => p.part?.filter fun q => !d.declares q.symbol).map Part.symbol

/-- Declares the rule from `lhs` to `parts`.  The productions that host its actions are numbered
right before it. -/
def declareRule (d : Draft) (lhs : NonterminalId) (parts : List RulePart)
    (precedence : Option Precedence) : Step ProductionId :=
  match d.nonterminals.entries[lhs.index]? with
  | none => .fail (.unknownSymbol (.nonterminal lhs)) d
  | some decl =>
    if lhs = .start then .fail (.unknownSymbol (.nonterminal lhs)) d
    else
      let parts := RulePart.joinActions parts
      match d.undeclared? parts with
      | some symbol => .fail (.unknownSymbol symbol) d
      | none =>
        let (body, action) := splitAction parts
        let hosted := body.countP RulePart.isAction
        if hosted = 0 ∧ d.hasRule lhs ((body.filterMap RulePart.part?).map Part.symbol).toArray then
          .fail (.duplicateRule decl.name) d
        else if h : d.rules.size + 1 + hosted < 65536 then
          (hostActions ⟨d.rules.size + 1 + hosted, h⟩ decl.valueType d #[] body).andThen
            fun rhs d => d.addRule lhs rhs action precedence .declared
        else .fail .tooManyProductions d

def declareStart (d : Draft) (n : NonterminalId) : Step Unit :=
  if n = .start ∨ d.declares (.nonterminal n) = false then .fail (.unknownSymbol (.nonterminal n)) d
  else .succeed () { d with start := some n }

end Draft

inductive Declaration where
  | terminal (name : String) (precedence : Option Precedence)
  | nonterminal (name : String)
  | valueType (symbol : Symbol) (type : String)
  | level (associativity : Associativity) (terminals : List TerminalId)
  | rule (lhs : NonterminalId) (parts : List RulePart) (precedence : Option Precedence)
  | start (symbol : NonterminalId)

inductive Declared where
  | terminal (id : TerminalId)
  | nonterminal (id : NonterminalId)
  | production (id : ProductionId)
  | nothing

namespace Draft

def declare (d : Draft) : Declaration → Step Declared
  | .terminal name precedence => (d.declareTerminal name precedence).map .terminal
  | .nonterminal name => (d.declareNonterminal name).map .nonterminal
  | .valueType symbol type => (d.declareType symbol type).map fun _ => .nothing
  | .level associativity ts => (d.declareLevel associativity ts).map fun _ => .nothing
  | .rule lhs parts precedence => (d.declareRule lhs parts precedence).map .production
  | .start n => (d.declareStart n).map fun _ => .nothing

/-- Makes all the declarations, passing over those that fail. -/
def declareAll (d : Draft) (declarations : List Declaration) : Draft :=
  declarations.foldl (fun d declaration => (d.declare declaration).state) d

def declareStrictly (d : Draft) : List Declaration → Step Unit
  | [] => .succeed () d
  | declaration :: rest =>
    match d.declare declaration with
    | ⟨.ok _, d⟩ => d.declareStrictly rest
    | ⟨.error e, d⟩ => .fail e d

end Draft

end Lalr
