import Lalr.Automaton.Basic
import Lalr.Table.Basic

namespace Lalr

/-- What can stop the filling: a violated invariant, or a transition over a nonterminal that the
grammar lacks. -/
inductive FillError where
  | violation (v : Violation)
  | undeclared (n : NonterminalId)
  deriving DecidableEq

inductive Proposal where
  | action (t : TerminalId) (action : Action)
  | goto (n : NonterminalId) (target : StateId)

/-- The rows of a state as far as they are filled, with what became of each proposed action. -/
structure Filling where
  actions : ActionRow
  gotos : GotoRow
  insertions : Array (TerminalId × Insertion)

namespace State

def insertByProduction (item : Item) : List Item → List Item
  | [] => [item]
  | other :: items =>
    if other.core.production < item.core.production then
      other :: insertByProduction item items
    else item :: other :: items

def completedOf (g : Grammar) : List Item → Except Violation (List Item)
  | [] => .ok []
  | item :: items => do
    let ended ← item.core.atEnd g
    let completed ← completedOf g items
    return if ended then insertByProduction item completed else completed

def completed (g : Grammar) (q : State) : Except Violation (List Item) :=
  completedOf g q.items.items.toList

/-- What a state proposes, its completed items being given. -/
def proposals (q : State) (completed : List Item) : List Proposal :=
  completed.flatMap (fun item =>
    item.lookahead.toList.map fun t => .action t (.reduce item.core.production))
  ++ q.transitions.map fun (symbol, target) =>
    match symbol with
    | .terminal t => .action t (.shift target)
    | .nonterminal n => .goto n target

end State

namespace Filling

def blank (g : Grammar) : Filling :=
  ⟨.blank g.terminals.size, Array.replicate g.nonterminals.size none, #[]⟩

def propose (g : Grammar) (state : StateId) (f : Filling) : Proposal → Except FillError Filling
  | .action t action =>
    match f.actions.insert g state t action with
    | ⟨.error e, _⟩ => .error (.violation e)
    | ⟨.ok insertion, actions⟩ =>
      .ok { f with actions, insertions := f.insertions.push (t, insertion) }
  | .goto n target =>
    if n.index < f.gotos.size then
      .ok { f with gotos := f.gotos.setIfInBounds n.index (some target) }
    else .error (.undeclared n)

def proposeAll (g : Grammar) (state : StateId) :
    Filling → List Proposal → Attempt FillError Filling Unit
  | f, [] => .succeed () f
  | f, proposal :: proposals =>
    match f.propose g state proposal with
    | .error e => .fail e f
    | .ok f => proposeAll g state f proposals

def resolved (state : StateId) (f : Filling) : List Diagnostic :=
  f.insertions.toList.filterMap fun (t, insertion) =>
    match insertion with
    | .resolved p resolution => some (.resolved state p t resolution)
    | _ => none

/-- The meetings that precedence left open: the terminal and the production in question. -/
def unresolved (f : Filling) : List (TerminalId × ProductionId) :=
  f.insertions.toList.filterMap fun (t, insertion) =>
    match insertion with
    | .unresolved p => some (t, p)
    | _ => none

end Filling

def pairs {α : Type} : List α → List (α × α)
  | [] => []
  | a :: as => as.map (a, ·) ++ pairs as

namespace State

/-- One report for each pair of completed items that have lookaheads in common. -/
def reduceReduceConflicts (q : State) (completed : List Item) : List Diagnostic :=
  (pairs completed).filterMap fun (first, second) =>
    let common := first.lookahead ∩ second.lookahead
    if common.isEmpty then none else some (.reduceReduce q.id first.core second.core common)

def shiftReduceConflict (g : Grammar) (q : State) (completed : List Item) (t : TerminalId)
    (p : ProductionId) : Except Violation Diagnostic :=
  match completed.find? (·.core.production == p) with
  | none => .error (.bogusResolution q.id t)
  | some reduce => do
    let shifts ← q.items.items.toList.filterMapM fun item => do
      return if (← item.core.symbolAfterDot g) = some (.terminal t) then some item.core else none
    return .shiftReduce q.id reduce.core shifts t

def shiftReduceConflicts (g : Grammar) (q : State) (completed : List Item) :
    List (TerminalId × ProductionId) → Attempt Violation (List Diagnostic) Unit
  | [] => .succeed () []
  | (t, p) :: meetings =>
    match q.shiftReduceConflict g completed t p with
    | .error e => .fail e []
    | .ok report =>
      let rest := shiftReduceConflicts g q completed meetings
      ⟨rest.outcome, report :: rest.state⟩

/-- The rows of a state and what was counted in them, with the reports made on the way. -/
def tabulate (g : Grammar) (q : State) :
    Attempt FillError (List Diagnostic) (ActionRow × GotoRow × ConflictCounts) :=
  match q.completed g with
  | .error e => .fail (.violation e) []
  | .ok completed =>
    match (Filling.blank g).proposeAll g q.id (q.proposals completed) with
    | ⟨.error e, filling⟩ => .fail e (filling.resolved q.id)
    | ⟨.ok (), filling⟩ =>
      let resolved := filling.resolved q.id
      let open_ := filling.unresolved
      let reduceReduce := q.reduceReduceConflicts completed
      let shiftReduce := q.shiftReduceConflicts g completed open_
      let reports := resolved ++ reduceReduce ++ shiftReduce.state
      match shiftReduce.outcome with
      | .error e => .fail (.violation e) reports
      | .ok () =>
        .succeed (filling.actions, filling.gotos,
          { conflicts := reduceReduce.length + open_.length
            shiftReduce := resolved.length + open_.length
            reduceReduce := reduceReduce.length
            resolved := resolved.length }) reports

end State

namespace Tables

def empty : Tables := ⟨⟨#[]⟩, ⟨#[]⟩, {}⟩

section Sink

variable {σ : Type} [DiagnosticSink σ]

open DiagnosticSink (reportAll)

def addStates (g : Grammar) : Tables → σ → List State → Attempt FillError σ Tables
  | tables, sink, [] => .succeed tables sink
  | tables, sink, q :: states =>
    match q.tabulate g with
    | ⟨.error e, reports⟩ => .fail e (reportAll sink reports)
    | ⟨.ok (actions, gotos, counts), reports⟩ =>
      addStates g
        ⟨⟨tables.actions.rows.push actions⟩, ⟨tables.gotos.rows.push gotos⟩,
          tables.counts.add counts⟩
        (reportAll sink reports) states

def fill (g : Grammar) (a : Automaton) (sink : σ) : Attempt FillError σ Tables :=
  addStates g .empty sink a.states.toList

end Sink

/-- The tables of an automaton, the reports being collected. -/
def build (g : Grammar) (a : Automaton) (sink : Diagnostics) :
    Attempt FillError Diagnostics Tables :=
  fill g a sink

end Tables

end Lalr
