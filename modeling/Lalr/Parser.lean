import Lalr.Packed.Basic
import Lalr.Grammar.Basic

namespace Lalr

inductive ParseTree where
  | token (t : TerminalId)
  | node (production : ProductionId) (children : List ParseTree)

namespace ParseTree

mutual

/-- A tree as text: tokens by name, and the children of a node in brackets, unless it has just
one. -/
def text (g : Grammar) : ParseTree → Option String
  | .token t => g.symbolName? (.terminal t)
  | .node _ [child] => text g child
  | .node _ children => do
    return "(" ++ " ".intercalate (← texts g children) ++ ")"

def texts (g : Grammar) : List ParseTree → Option (List String)
  | [] => some []
  | child :: children => do
    return (← text g child) :: (← texts g children)

end

end ParseTree

namespace Parser

inductive Event where
  | shift (next : StateId)
  | reduce (production : ProductionId)
  | accept
  deriving DecidableEq

def Event.text : Event → String
  | .shift next => "s" ++ toString next.index
  | .reduce p => "r" ++ toString p.index
  | .accept => "accept"

inductive Failure where
  | unknownToken (name : String)
  | endOfInput
  | syntaxError (t : TerminalId) (state : StateId)
  | noValue
  | stackUnderflow
  | missingGoto
  | violation (v : Violation)
  | stepLimit
  deriving DecidableEq

def Failure.message (g : Grammar) : Failure → Option String
  | unknownToken name => some ("unknown token " ++ name)
  | endOfInput => some "unexpected end of input"
  | syntaxError t state => do
    return "syntax error at " ++ (← g.symbolName? (.terminal t)) ++ " in " ++ state.label
  | noValue => some "no value"
  | stackUnderflow => some "stack underflow"
  | missingGoto => some "missing goto"
  | violation v => some v.message
  | stepLimit => some "step limit"

/-- A state on the stack and the tree of the symbol over which it was entered. -/
structure Frame where
  state : StateId
  tree : ParseTree

structure Configuration where
  /-- The frames above the start state, the top one first. -/
  stack : List Frame
  input : List TerminalId

inductive Step where
  | next (event : Event) (c : Configuration)
  | accepted (tree : ParseTree)
  | failed (event : Option Event) (failure : Failure)

def top (tables : PackedTables) (stack : List Frame) : StateId :=
  match stack with
  | [] => tables.startState
  | frame :: _ => frame.state

def reduce (g : Grammar) (tables : PackedTables) (c : Configuration) (p : ProductionId) : Step :=
  match g.production? p with
  | none => .failed (some (.reduce p)) (.violation (.unknownProduction p))
  | some production =>
    if c.stack.length < production.length then .failed (some (.reduce p)) .stackUnderflow
    else
      let children := (c.stack.take production.length).reverse.map (·.tree)
      let stack := c.stack.drop production.length
      match tables.goto (top tables stack) production.lhs with
      | .error e => .failed (some (.reduce p)) (.violation e)
      | .ok none => .failed (some (.reduce p)) .missingGoto
      | .ok (some next) =>
        .next (.reduce p) { c with stack := ⟨next, .node p children⟩ :: stack }

def step (g : Grammar) (tables : PackedTables) (c : Configuration) : Step :=
  match c.input with
  | [] => .failed none .endOfInput
  | t :: rest =>
    let state := top tables c.stack
    match tables.action state t with
    | .error e => .failed none (.violation e)
    | .ok .error => .failed none (.syntaxError t state)
    | .ok (.shift next) => .next (.shift next) ⟨⟨next, .token t⟩ :: c.stack, rest⟩
    | .ok (.reduce p) =>
      if p = tables.startProduction then
        match c.stack with
        | [] => .failed (some .accept) .noValue
        | frame :: _ => .accepted frame.tree
      else reduce g tables c p

inductive Outcome where
  | accepted (tree : ParseTree)
  | failed (failure : Failure)

/-- Makes at most `rounds` rounds.  Gives the outcome and what was done, in order, after the events
of `before`, the last one first. -/
def run (g : Grammar) (tables : PackedTables) :
    (rounds : Nat) → Configuration → (before : List Event) → Outcome × List Event
  | 0, _, before => (.failed .stepLimit, before.reverse)
  | rounds + 1, c, before =>
    match step g tables c with
    | .next event c => run g tables rounds c (event :: before)
    | .accepted tree => (.accepted tree, (Event.accept :: before).reverse)
    | .failed event failure => (.failed failure, (event.toList ++ before).reverse)

def start (tokens : List TerminalId) : Configuration :=
  ⟨[], tokens ++ [.eof]⟩

/-- The tokens of the given names, or the first name that is none. -/
def tokensNamed (g : Grammar) : List String → Except Failure (List TerminalId)
  | [] => .ok []
  | name :: names =>
    match g.terminalNamed? name with
    | none => .error (.unknownToken name)
    | some t => (t :: ·) <$> tokensNamed g names

def parse (g : Grammar) (tables : PackedTables) (rounds : Nat) (names : List String) :
    Outcome × List Event :=
  match tokensNamed g names with
  | .error failure => (.failed failure, [])
  | .ok tokens => run g tables rounds (start tokens) []

end Parser

end Lalr
