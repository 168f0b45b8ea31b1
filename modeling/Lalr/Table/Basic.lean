import Lalr.Table.Action

namespace Lalr

structure ActionTable where
  rows : Array ActionRow
  deriving DecidableEq

namespace ActionTable

def row? (table : ActionTable) (q : StateId) : Option ActionRow := table.rows[q.index]?

def get? (table : ActionTable) (q : StateId) (t : TerminalId) : Option Action :=
  (table.row? q).bind (·.get? t)

def compact (table : ActionTable) : ActionTable :=
  ⟨table.rows.map ActionRow.compact⟩

def mark (reduced : Array Bool) (p : ProductionId) : Array Bool :=
  reduced.setIfInBounds p.index true

def markRow (reduced : Array Bool) (row : ActionRow) : Array Bool :=
  let reduced := row.cells.foldl
    (fun reduced action =>
      match action with
      | .reduce p => mark reduced p
      | _ => reduced) reduced
  row.default.elim reduced (mark reduced)

def unreduced (g : Grammar) (table : ActionTable) : List ProductionId :=
  let reduced := table.rows.foldl markRow (Array.replicate g.productions.size false)
  (g.productions.toList.map (·.id)).filter fun p => !reduced[p.index]?.getD false

end ActionTable

abbrev GotoRow := Array (Option StateId)

structure GotoTable where
  rows : Array GotoRow
  deriving DecidableEq

def GotoTable.get? (table : GotoTable) (q : StateId) (n : NonterminalId) : Option StateId :=
  (table.rows[q.index]?.bind (·[n.index]?)).join

structure ConflictCounts where
  /-- Conflicts that precedence did not settle; a grammar may announce how many it has. -/
  conflicts : Nat := 0
  /-- Cells in which a shift met a reduction, settled or not. -/
  shiftReduce : Nat := 0
  /-- Pairs of completed items that share lookaheads. -/
  reduceReduce : Nat := 0
  resolved : Nat := 0
  deriving DecidableEq

def ConflictCounts.add (a b : ConflictCounts) : ConflictCounts where
  conflicts := a.conflicts + b.conflicts
  shiftReduce := a.shiftReduce + b.shiftReduce
  reduceReduce := a.reduceReduce + b.reduceReduce
  resolved := a.resolved + b.resolved

structure Tables where
  actions : ActionTable
  gotos : GotoTable
  counts : ConflictCounts

end Lalr
