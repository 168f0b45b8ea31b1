import Lalr.Item.Basic

namespace Lalr

inductive Severity where
  /-- For information only; never counted as a problem. -/
  | note
  | warning
  | error
  deriving DecidableEq

/-- How precedence settles the meeting of a shift and a reduction. -/
inductive Resolution where
  | shift
  | reduce
  /-- Neither is taken; the terminal becomes a syntax error. -/
  | nonassoc
  deriving DecidableEq

def Resolution.phrase : Resolution → String
  | shift => "shifting"
  | reduce => "reducing"
  | nonassoc => "a syntax error (nonassoc)"

inductive Diagnostic where
  /-- Two completed items of a state have lookaheads in common; the production with the lower
  number is kept. -/
  | reduceReduce (state : StateId) (first second : ItemCore) (lookaheads : TerminalSet)
  /-- A completed item competes with a shift and no precedence decides; the shift is kept. -/
  | shiftReduce (state : StateId) (reduce : ItemCore) (shifts : List ItemCore)
      (terminal : TerminalId)
  | resolved (state : StateId) (production : ProductionId) (terminal : TerminalId)
      (resolution : Resolution)
  | unreduced (production : ProductionId)
  | unusedTerminal (terminal : TerminalId)
  | unusedNonterminal (nonterminal : NonterminalId)
  | tooManyConflicts (expected actual : Nat)

namespace Diagnostic

def severity : Diagnostic → Severity
  | resolved .. => .note
  | tooManyConflicts .. => .error
  | _ => .warning

/-- Whether the expected number of conflicts includes this one. -/
def isConflict : Diagnostic → Bool
  | reduceReduce .. => true
  | shiftReduce .. => true
  | _ => false

/-- A production by its text, or else as `unknown` says. -/
def productionText (g : Grammar) (p : ProductionId) (unknown : String) : Option String :=
  match g.production? p with
  | some production => production.text g
  | none => some unknown

def text (g : Grammar) : Diagnostic → Option String
  | reduceReduce state first second lookaheads => do
    let firstText ← first.text g
    let secondText ← second.text g
    let lookaheads ← lookaheads.text g
    return "\n".intercalate [
      "*** Reduce/Reduce conflict found in state #" ++ toString state.index,
      "  between " ++ firstText,
      "  and     " ++ secondText,
      "  under symbols: " ++ lookaheads,
      "  Resolved in favor of the "
        ++ (if first.production < second.production then "first" else "second") ++ " production."]
  | shiftReduce state reduce shifts terminal => do
    let reduce ← reduce.text g
    let shifts ← shifts.mapM fun shift => shift.text g
    let terminal ← g.symbolName? (.terminal terminal)
    return "\n".intercalate <|
      ("*** Shift/Reduce conflict found in state #" ++ toString state.index)
      :: ("  between " ++ reduce)
      :: shifts.map ("  and     " ++ ·)
      ++ ["  under symbol " ++ terminal, "  Resolved in favor of shifting."]
  | resolved state production terminal resolution => do
    let production ← productionText g production "<unknown>"
    let terminal ← g.symbolName? (.terminal terminal)
    return "Shift/Reduce conflict in state #" ++ toString state.index ++ " between \""
      ++ production ++ "\" and " ++ terminal ++ " resolved by precedence in favor of "
      ++ resolution.phrase
  | unreduced production =>
    match g.production? production with
    | some p => do return "*** Production \"" ++ (← p.text g) ++ "\" never reduced"
    | none => some ("*** Production " ++ production.label ++ " never reduced")
  | unusedTerminal terminal => do
    return "Terminal \"" ++ (← g.symbolName? (.terminal terminal))
      ++ "\" was declared but never used"
  | unusedNonterminal nonterminal => do
    return "Non terminal \"" ++ (← g.symbolName? (.nonterminal nonterminal))
      ++ "\" was declared but never used"
  | tooManyConflicts expected actual =>
    some ("*** More conflicts encountered than expected -- parser generation aborted ("
      ++ toString actual ++ " found, " ++ toString expected ++ " expected)")

end Diagnostic

class DiagnosticSink (σ : Type) where
  report : σ → Diagnostic → σ
  fatal : σ → Violation → σ

def DiagnosticSink.reportAll {σ : Type} [DiagnosticSink σ] (sink : σ) (entries : List Diagnostic) :
    σ :=
  entries.foldl report sink

/-- The diagnostics reported so far, counted by severity, and the number of violated invariants. -/
structure Diagnostics where
  entries : Array Diagnostic
  notes : Nat
  warnings : Nat
  errors : Nat
  fatals : Nat

namespace Diagnostics

def empty : Diagnostics := ⟨#[], 0, 0, 0, 0⟩

instance : EmptyCollection Diagnostics := ⟨empty⟩

def size (d : Diagnostics) : Nat := d.entries.size

def isEmpty (d : Diagnostics) : Bool := d.entries.isEmpty

def hasErrors (d : Diagnostics) : Bool :=
  d.errors > 0 || d.fatals > 0

def report (d : Diagnostics) (entry : Diagnostic) : Diagnostics :=
  let d := { d with entries := d.entries.push entry }
  match entry.severity with
  | .note => { d with notes := d.notes + 1 }
  | .warning => { d with warnings := d.warnings + 1 }
  | .error => { d with errors := d.errors + 1 }

/-- Notes that an invariant was violated.  The violation itself is not kept. -/
def fatal (d : Diagnostics) (_ : Violation) : Diagnostics :=
  { d with fatals := d.fatals + 1 }

@[default_instance]
instance : DiagnosticSink Diagnostics := ⟨report, fatal⟩

def text (g : Grammar) (d : Diagnostics) : Option String := do
  return Text.lines (← d.entries.toList.mapM (·.text g))

end Diagnostics

end Lalr
