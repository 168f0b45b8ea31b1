import Lalr.Table.Basic

/-!
Packed tables: parse tables as rows of 32-bit words.  A row is a sequence of pairs, a symbol and a
code, closed by the pair of the key `-1`; a lookup takes the first pair whose key is the symbol or
`-1`.  In an action row the code is `0` for an error, one more than the state for a shift, and one
more than the production, negated, for a reduction; the closing pair holds the default.  In a goto
row the code is a state, and the closing pair says that there is none.
-/

namespace Lalr

abbrev Word := Int32

def Word.close : Word := -1

def Ident.ofInt? (kind : Kind) (i : Int) : Option (Ident kind) :=
  if i < 0 then none else Ident.ofNat? kind i.toNat

inductive PackedAction where
  | error
  | shift (next : StateId)
  | reduce (production : ProductionId)
  deriving DecidableEq

namespace PackedAction

def code : PackedAction → Word
  | error => 0
  | shift next => Int32.ofInt (next.index + 1)
  | reduce p => Int32.ofInt (-(p.index + 1))

def ofCode (word : Word) : Except Violation PackedAction :=
  if word.toInt = 0 then .ok .error
  else if 0 < word.toInt then
    match Ident.ofInt? .state (word.toInt - 1) with
    | none => .error (.malformedTable .stateRange)
    | some next => .ok (.shift next)
  else
    match Ident.ofInt? .production (-(word.toInt + 1)) with
    | none => .error (.malformedTable .reduceRange)
    | some p => .ok (.reduce p)

end PackedAction

structure PackedTables where
  actionRows : Array (List Word)
  gotoRows : Array (List Word)
  startState : StateId
  startProduction : ProductionId
  deriving DecidableEq

namespace PackedTables

def keyWord (position : Nat) : Except Violation Word :=
  if position < 2147483648 then .ok (Int32.ofInt position)
  else .error (.malformedTable .symbolRange)

/-- The code written for a cell, if any is.  Nothing is written for what the default of the row says
anyway; but where there is a default, an error that precedence asks for has to be written. -/
def cellCode (default : Option ProductionId) : Action → Option Word
  | .error => none
  | .shift next => some (PackedAction.shift next).code
  | .reduce p => if some p = default then none else some (PackedAction.reduce p).code
  | .nonassoc => if default.isSome then some PackedAction.error.code else none

def pairsFrom (codes : List (Option Word)) (position : Nat) : Except Violation (List Word) := do
  let pairs ← (codes.zipIdx position).mapM fun (code, i) =>
    match code with
    | none => Except.ok []
    | some code => do return [← keyWord i, code]
  return pairs.flatten

def packActions (row : ActionRow) : Except Violation (List Word) := do
  let pairs ← pairsFrom (row.cells.toList.map (cellCode row.default)) 0
  let default := row.default.elim PackedAction.error PackedAction.reduce
  return pairs ++ [.close, default.code]

def packGotos (row : GotoRow) : Except Violation (List Word) := do
  let pairs ← pairsFrom (row.toList.map fun target => target.map fun q => Int32.ofInt q.index) 0
  return pairs ++ [.close, .close]

def pack (actions : ActionTable) (gotos : GotoTable) (startState : StateId)
    (startProduction : ProductionId) : Except Violation PackedTables := do
  let actionRows ← actions.rows.mapM packActions
  let gotoRows ← gotos.rows.mapM packGotos
  return { actionRows, gotoRows, startState, startProduction }

/-- The first pair of a row whose key is `key` or the closing one. -/
def lookup (key : Word) : List Word → Option (Word × Word)
  | k :: code :: rest => if k = .close ∨ k = key then some (k, code) else lookup key rest
  | _ => none

/-- The action of state `q` on terminal `t`.  A row with a default has no errors but those that
precedence asks for; it reduces instead. -/
def action (tables : PackedTables) (q : StateId) (t : TerminalId) : Except Violation PackedAction :=
  match tables.actionRows[q.index]? with
  | none => .error (.unknownState q)
  | some row =>
    match lookup (Int32.ofInt t.index) row with
    | none => .error (.malformedTable .unterminatedActions)
    | some (_, code) => PackedAction.ofCode code

def goto (tables : PackedTables) (q : StateId) (n : NonterminalId) :
    Except Violation (Option StateId) :=
  match tables.gotoRows[q.index]? with
  | none => .error (.unknownState q)
  | some row =>
    match lookup (Int32.ofInt n.index) row with
    | none => .error (.malformedTable .unterminatedGotos)
    | some (key, code) =>
      if key = .close then .ok none
      else match Ident.ofInt? .state code.toInt with
        | none => .error (.malformedTable .stateRange)
        | some next => .ok (some next)

def codes : List Word → List Word
  | _ :: code :: rest => code :: codes rest
  | _ => []

/-- Marks the production that a code reduces by; there have to be more than its number. -/
def markCode (count : Nat) (reduced : Array Bool) (code : Word) : Except Violation (Array Bool) :=
  match PackedAction.ofCode code with
  | .error e => .error e
  | .ok (.reduce p) =>
    if p.index < count then .ok (ActionTable.mark reduced p) else .error (.unknownProduction p)
  | .ok _ => .ok reduced

def markRows (count : Nat) (reduced : Array Bool) (rows : List (List Word)) :
    Except Violation (Array Bool) :=
  (rows.flatMap codes).foldlM (markCode count) reduced

/-- Those of the first `count` productions that no action row reduces by, in the order of their
numbers.  Beyond the numbers of productions there is nothing to name. -/
def unreduced (tables : PackedTables) (count : Nat) : Except Violation (List ProductionId) := do
  let reduced ← markRows count (Array.replicate (min count 65536) false) tables.actionRows.toList
  if 65536 < count then .error (.malformedTable .productionRange)
  else return (List.range count).filterMap fun i =>
    if reduced[i]?.getD false then none else Ident.ofNat? .production i

end PackedTables

end Lalr
