import Lalr.Attempt
import Lalr.Diagnostic
import Std.Data.TreeMap

/-!
Action rows: what a state does on each terminal.  Actions are proposed one at a time; where two meet
in a cell, the row settles which of them stays, in the same way whichever came first.
-/

namespace Lalr

inductive Action where
  | error
  | shift (next : StateId)
  /-- Reducing by the start production accepts the input. -/
  | reduce (production : ProductionId)
  /-- A syntax error that precedence asks for. -/
  | nonassoc
  deriving DecidableEq

def Action.isError : Action → Bool
  | error => true
  | nonassoc => true
  | _ => false

inductive Insertion where
  | placed
  /-- Another reduction was there; the production with the lower number stays. -/
  | reduceReduce
  | resolved (production : ProductionId) (resolution : Resolution)
  /-- A shift and a reduction met without any precedence; the shift stays. -/
  | unresolved (production : ProductionId)
  deriving DecidableEq

structure ActionRow where
  cells : Array Action
  /-- The reduction taken where a cell says nothing, once the row is compacted. -/
  default : Option ProductionId
  deriving DecidableEq

namespace Resolution

/-- Decides between shifting a terminal and reducing a production of the given precedences.  The
higher priority wins; between equal ones the associativity of the terminal speaks.  One precedence
alone wins against none. -/
def between (shift reduce : Option Precedence) : Option Resolution :=
  match shift, reduce with
  | none, none => none
  | some _, none => some .shift
  | none, some _ => some .reduce
  | some s, some r =>
    if r.priority < s.priority then some .shift
    else if s.priority < r.priority then some .reduce
    else match s.associativity with
      | .left => some .reduce
      | .right => some .shift
      | .nonassoc => some .nonassoc

end Resolution

namespace ActionRow

def blank (terminals : Nat) : ActionRow :=
  ⟨Array.replicate terminals .error, none⟩

def get? (row : ActionRow) (t : TerminalId) : Option Action := row.cells[t.index]?

def set? (row : ActionRow) (t : TerminalId) (action : Action) : Option ActionRow :=
  if t.index < row.cells.size then
    some { row with cells := row.cells.setIfInBounds t.index action }
  else none

/-- What a cell of terminal `t` holds after a shift and a reduction have met there. -/
def settle (g : Grammar) (t : TerminalId) (next : StateId) (p : ProductionId) :
    Except Violation (Action × Insertion) :=
  match g.production? p with
  | none => .error (.unknownProduction p)
  | some production =>
    match Resolution.between ((g.terminal? t).bind (·.precedence)) production.precedence with
    | none => .ok (.shift next, .unresolved p)
    | some .shift => .ok (.shift next, .resolved p .shift)
    | some .reduce => .ok (.reduce p, .resolved p .reduce)
    | some .nonassoc => .ok (.nonassoc, .resolved p .nonassoc)

/-- What a cell that holds `current` holds after `proposed` has been proposed. -/
def meet (g : Grammar) (state : StateId) (t : TerminalId) (current proposed : Action) :
    Except Violation (Action × Insertion) :=
  match current, proposed with
  | _, .error => .error (.bogusResolution state t)
  | _, .nonassoc => .error (.bogusResolution state t)
  | .error, proposed => .ok (proposed, .placed)
  | .reduce p, .reduce q =>
    if p = q then .ok (.reduce p, .placed)
    else .ok (.reduce (if q < p then q else p), .reduceReduce)
  | .shift next, .reduce p => settle g t next p
  | .reduce p, .shift next => settle g t next p
  | .shift next, .shift other =>
    if next = other then .ok (.shift next, .placed) else .error (.bogusResolution state t)
  | .nonassoc, _ => .error (.bogusResolution state t)

def insert (g : Grammar) (state : StateId) (row : ActionRow) (t : TerminalId)
    (proposed : Action) : Attempt Violation ActionRow Insertion :=
  match row.cells[t.index]? with
  | none => .fail (.bogusResolution state t) row
  | some current =>
    match meet g state t current proposed with
    | .error e => .fail e row
    | .ok (action, insertion) =>
      .succeed insertion { row with cells := row.cells.setIfInBounds t.index action }

end ActionRow

/-- How often each production has been seen, by number, how often the leading one, and which one
leads. -/
structure Tally where
  counts : Std.TreeMap Nat Nat
  most : Nat
  leader : Option ProductionId

namespace Tally

def empty : Tally := ⟨∅, 0, none⟩

/-- Counts `p` once more.  It takes the lead only when it has more than any other. -/
def add (tally : Tally) (p : ProductionId) : Tally :=
  let count := tally.counts.getD p.index 0 + 1
  { counts := tally.counts.insert p.index count
    most := if tally.most < count then count else tally.most
    leader := if tally.most < count then some p else tally.leader }

def addAction (tally : Tally) : Action → Tally
  | .reduce p => tally.add p
  | _ => tally

end Tally

namespace ActionRow

/-- The reduction that most cells of a row ask for; of several, the one that got there first. -/
def mostFrequent (row : ActionRow) : Option ProductionId :=
  (row.cells.foldl Tally.addAction .empty).leader

def compact (row : ActionRow) : ActionRow :=
  { row with default := row.mostFrequent }

end ActionRow

end Lalr
