import Lalr.Table.Basic

namespace Lalr

/-- The heading of the row at a position; the numbers of states start over when they run out. -/
def rowHeading (position : Nat) : String :=
  "#### State " ++ (⟨position % 65536, Nat.mod_lt _ (by decide)⟩ : StateId).label

namespace ActionTable

/-- What a row says about one terminal, if anything.  The grammar has to know the terminal even if
nothing is said about it. -/
def cellLine (g : Grammar) (position : Nat) (action : Action) : Option (List String) := do
  let terminal ← g.terminals[position]?
  match action with
  | .error => return []
  | .shift next => return ["- " ++ terminal.name ++ " => shift(" ++ next.label ++ ")"]
  | .reduce p =>
    if p = .start then return ["- " ++ terminal.name ++ " => accept"]
    else
      let production ← Diagnostic.productionText g p p.label
      return ["- " ++ terminal.name ++ " => reduce(" ++ production ++ ")"]
  | .nonassoc => return ["- " ++ terminal.name ++ " => nonassoc"]

def defaultLines (g : Grammar) : Option ProductionId → Option (List String)
  | none => some []
  | some p => do
    let production ← Diagnostic.productionText g p p.label
    return ["## default", "- reduce(" ++ production ++ ")"]

def rowText (g : Grammar) (position : Nat) (row : ActionRow) : Option String := do
  let cells ← row.cells.toList.zipIdx.mapM fun (action, i) => cellLine g i action
  let default ← defaultLines g row.default
  return Text.lines (rowHeading position :: "## actions" :: cells.flatten ++ default)

def text (g : Grammar) (table : ActionTable) : Option String := do
  return "\n".intercalate (← table.rows.toList.zipIdx.mapM fun (row, i) => rowText g i row)

end ActionTable

namespace GotoTable

def cellLine (g : Grammar) (position : Nat) : Option StateId → Option (List String)
  | none => some []
  | some target => do
    let nonterminal ← g.nonterminals[position]?
    return ["- " ++ nonterminal.name ++ " => goto(" ++ target.label ++ ")"]

def rowText (g : Grammar) (position : Nat) (row : GotoRow) : Option String := do
  let cells ← row.toList.zipIdx.mapM fun (target, i) => cellLine g i target
  return Text.lines (rowHeading position :: "## gotos" :: cells.flatten)

def text (g : Grammar) (table : GotoTable) : Option String := do
  return "\n".intercalate (← table.rows.toList.zipIdx.mapM fun (row, i) => rowText g i row)

end GotoTable

end Lalr
