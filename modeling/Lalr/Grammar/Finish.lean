import Lalr.Grammar.Draft
import Lalr.Grammar.First

namespace Lalr

namespace Rule

/-- A production without a precedence of its own takes that of its rightmost terminal which has
one. -/
def inheritPrecedence (terminals : Array TerminalDecl) (r : Rule) : Rule :=
  match r.precedence with
  | some _ => r
  | none =>
    { r with
      precedence := r.rhs.toList.reverse.findSome? fun part =>
        match part.symbol with
        | .terminal t => terminals[t.index]?.bind (·.precedence)
        | .nonterminal _ => none }

end Rule

namespace Draft

def startRule (start : NonterminalId) : Rule where
  id := .start
  lhs := .start
  rhs := #[⟨.nonterminal start, none⟩]
  action := none
  precedence := none
  origin := .declared

/-- The declared start symbol, else the first nonterminal that was declared. -/
def start? (d : Draft) : Option NonterminalId :=
  d.start.or ((d.nonterminals.entries.find? fun n => n.id != .start && !n.hidden).map (·.id))

def rulesByLhs (nonterminals : Nat) (rules : Array Rule) : Array (List ProductionId) :=
  rules.foldr (fun r byLhs => byLhs.modify r.lhs.index (r.id :: ·))
    (Array.replicate nonterminals [])

def alternatives (rules : Array Rule) (byLhs : Array (List ProductionId)) : Alternatives :=
  byLhs.map fun ids => ids.filterMap fun p => rules[p.index]?.map (·.rhs)

/-- The grammar with the given symbols, their uses, and rules, the start rule among them. -/
def assemble (terminals : Array TerminalDecl) (nonterminals : Array NonterminalDecl)
    (uses : UseCounts) (rules : Array Rule) (start : NonterminalId) : Grammar :=
  let byLhs := rulesByLhs nonterminals.size rules
  let alternatives := alternatives rules byLhs
  let nullable := Nullability.compute alternatives
  let first := FirstSets.compute alternatives nullable
  { terminals := terminals.mapIdx fun i t =>
      { t with uses := uses.terminals[i]?.getD 0 }
    nonterminals := nonterminals.mapIdx fun i n =>
      { n with
        nullable := nullable[i]?.getD false
        first := first[i]?.getD ∅
        productions := byLhs[i]?.getD []
        uses := uses.nonterminals[i]?.getD 0 }
    productions := rules.map fun r =>
      let (found, vanishes) := FirstSets.ofPositions
        (fun n => Nullability.known nullable (.nonterminal n)) (FirstSets.ofNonterminal first)
        r.rhs 0 ∅
      { r with nullable := vanishes, first := found }
    start }

def finish (d : Draft) : Except DefinitionError Grammar :=
  match d.start? with
  | none => .error .noStartSymbol
  | some start =>
    if d.rules.isEmpty then .error .emptyGrammar
    else
      let rules := (#[startRule start] ++ d.rules).map (·.inheritPrecedence d.terminals.entries)
      let uses := d.uses.noteRule (startRule start)
      .ok (assemble d.terminals.entries d.nonterminals.entries uses rules start)

end Draft

/-- The grammar that a list of declarations defines.  Those that fail are passed over. -/
def Grammar.define (declarations : List Declaration) : Except DefinitionError Grammar :=
  (Draft.initial.declareAll declarations).finish

def Grammar.defineStrictly (declarations : List Declaration) : Except DefinitionError Grammar :=
  match Draft.initial.declareStrictly declarations with
  | ⟨.ok _, d⟩ => d.finish
  | ⟨.error e, _⟩ => .error e

end Lalr
