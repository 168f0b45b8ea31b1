import Lalr.Grammar.First
import Lalr.Grammar.Text
import Lalr.Violation

namespace Lalr

/-- A production with a mark before position `dot` of its right side.  This pair tells items apart;
the lookahead plays no part in it. -/
@[ext]
structure ItemCore where
  production : ProductionId
  dot : Nat
  deriving DecidableEq

/-- The place of an item: a slot of a state. -/
structure ItemRef where
  state : StateId
  slot : Nat
  deriving DecidableEq

structure Item where
  core : ItemCore
  lookahead : TerminalSet
  /-- The items that get whatever lookahead this one has, without repeats. -/
  links : List ItemRef

namespace ItemCore

instance : LT ItemCore :=
  ⟨fun a b => a.production < b.production ∨ (a.production = b.production ∧ a.dot < b.dot)⟩

instance (a b : ItemCore) : Decidable (a < b) :=
  inferInstanceAs
    (Decidable (a.production < b.production ∨ (a.production = b.production ∧ a.dot < b.dot)))

theorem lt_iff {a b : ItemCore} :
    a < b ↔ a.production < b.production ∨ (a.production = b.production ∧ a.dot < b.dot) := Iff.rfl

def code (c : ItemCore) : Nat := c.production.index + 65536 * c.dot

theorem code_inj {a b : ItemCore} : a.code = b.code ↔ a = b := by
  constructor
  · intro h
    have ha := a.production.index_lt
    have hb := b.production.index_lt
    unfold code at h
    exact ItemCore.ext (Ident.ext_index (by omega)) (by omega)
  · exact congrArg code

def symbolAfterDot (g : Grammar) (c : ItemCore) : Except Violation (Option Symbol) :=
  match g.production? c.production with
  | none => .error (.unknownProduction c.production)
  | some p => .ok (p.symbolAt c.dot)

def atEnd (g : Grammar) (c : ItemCore) : Except Violation Bool :=
  match g.production? c.production with
  | none => .error (.unknownProduction c.production)
  | some p => .ok (p.length ≤ c.dot)

def label (c : ItemCore) : String :=
  c.production.label ++ "@" ++ toString c.dot

/-- A core as it would be written on paper, as in `A ::= b (*) C`. -/
def text (g : Grammar) (c : ItemCore) : Option String :=
  match g.production? c.production with
  | none => some c.label
  | some p => do
    let lhs ← g.symbolName? (.nonterminal p.lhs)
    let names ← p.rhs.toList.mapM fun part => g.symbolName? part.symbol
    return " ".intercalate (lhs :: "::=" :: names.take c.dot ++ "(*)" :: names.drop c.dot)

end ItemCore

namespace Item

def initial (p : ProductionId) (lookahead : TerminalSet) : Item :=
  ⟨⟨p, 0⟩, lookahead, []⟩

/-- The item with the mark moved over the next symbol.  Its lookahead starts out empty; it arrives
later along links. -/
def shift (g : Grammar) (item : Item) : Except Violation Item := do
  if ← item.core.atEnd g then .error (.shiftAtEnd item.core.production)
  else .ok ⟨⟨item.core.production, item.core.dot + 1⟩, ∅, []⟩

def addLink (item : Item) (target : ItemRef) : Item :=
  if target ∈ item.links then item else { item with links := item.links ++ [target] }

@[simp] theorem core_addLink (item : Item) (target : ItemRef) :
    (item.addLink target).core = item.core := by
  unfold addLink
  split <;> rfl

def text (g : Grammar) (item : Item) : Option String := do
  let core ← item.core.text g
  let lookahead ← item.lookahead.text g
  return "[" ++ core ++ ", " ++ lookahead ++ "]"

end Item

end Lalr
