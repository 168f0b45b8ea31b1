import Lalr.Grammar.Basic
import Lalr.Saturation

namespace Lalr

abbrev Alternatives := Array (List (Array Part))

namespace Alternatives

def ofIndex (alternatives : Alternatives) (n : Nat) : List (Array Part) :=
  alternatives[n]?.getD []

end Alternatives

namespace Nullability

def known (nullable : Array Bool) : Symbol → Bool
  | .terminal _ => false
  | .nonterminal n => nullable[n.index]?.getD false

/-- A nonterminal becomes nullable once all symbols of one of its right sides are. -/
def grow (alternatives : Alternatives) (nullable : Array Bool) (n : Nat) (now : Bool) : Bool :=
  now || (alternatives.ofIndex n).any fun rhs => rhs.all fun part => known nullable part.symbol

def room (now : Bool) : Nat :=
  if now then 0 else 1

theorem room_grow_lt (alternatives : Alternatives) (nullable : Array Bool) (n : Nat) (now : Bool)
    (h : grow alternatives nullable n now ≠ now) :
    room (grow alternatives nullable n now) < room now := by
  cases now <;> simp_all [grow, room]

def compute (alternatives : Alternatives) : Array Bool :=
  Saturation.saturate (Saturation.sweep (grow alternatives)) room
    (fun _ => Saturation.totalRoom_sweep_lt (room_grow_lt alternatives))
    (Array.replicate alternatives.size false)

end Nullability

namespace FirstSets

/-- The terminals that can begin what the positions of `rhs` from `i` on derive, joined to `found`,
and whether all of these positions can vanish. -/
def ofPositions (nullable : NonterminalId → Bool) (first : NonterminalId → TerminalSet)
    (rhs : Array Part) (i : Nat) (found : TerminalSet) : TerminalSet × Bool :=
  if h : i < rhs.size then
    match rhs[i].symbol with
    | .terminal t => (found ∪ .single t, false)
    | .nonterminal n =>
      if nullable n then ofPositions nullable first rhs (i + 1) (found ∪ first n)
      else (found ∪ first n, false)
  else (found, true)
termination_by rhs.size - i

def ofNonterminal (sets : Array TerminalSet) (n : NonterminalId) : TerminalSet :=
  sets[n.index]?.getD ∅

def grow (alternatives : Alternatives) (nullable : Array Bool) (sets : Array TerminalSet)
    (n : Nat) (now : TerminalSet) : TerminalSet :=
  now ∪ (alternatives.ofIndex n).foldl (fun found rhs =>
    (ofPositions (fun n => Nullability.known nullable (.nonterminal n)) (ofNonterminal sets)
      rhs 0 found).1) ∅

theorem room_grow_lt (alternatives : Alternatives) (nullable : Array Bool)
    (sets : Array TerminalSet) (n : Nat) (now : TerminalSet)
    (h : grow alternatives nullable sets n now ≠ now) :
    (grow alternatives nullable sets n now).room < now.room :=
  IdentSet.room_union_lt h

def compute (alternatives : Alternatives) (nullable : Array Bool) : Array TerminalSet :=
  Saturation.saturate (Saturation.pass (grow alternatives nullable)) IdentSet.room
    (fun _ => Saturation.totalRoom_pass_lt (room_grow_lt alternatives nullable))
    (Array.replicate alternatives.size ∅)

end FirstSets

namespace Grammar

/-- The terminals that can begin what the positions of `rhs` from `i` on derive, and whether all of
these positions can vanish. -/
def firstFrom (g : Grammar) (rhs : Array Part) (i : Nat) : TerminalSet × Bool :=
  FirstSets.ofPositions g.isNullable g.firstSet rhs i ∅

/-- The terminals that can follow the positions of `rhs` before `i` when the terminals of
`lookahead` follow `rhs` as a whole, and whether the latter are among them. -/
def firstWithLookahead (g : Grammar) (rhs : Array Part) (i : Nat) (lookahead : TerminalSet) :
    TerminalSet × Bool :=
  let (first, vanishes) := g.firstFrom rhs i
  (if vanishes then first ∪ lookahead else first, vanishes)

end Grammar

end Lalr
