import Lalr.Text

/-!
Identifiers and grammar symbols.  Terminals, nonterminals, productions and states are numbered
apart, each number in sixteen bits; the bound is part of the identifier, so tables and words never
have to ask whether a number fits.
-/

namespace Lalr

inductive Kind where
  | terminal
  | nonterminal
  | production
  | state
  deriving DecidableEq

structure Ident (kind : Kind) where
  index : Nat
  index_lt : index < 65536 := by decide
  deriving DecidableEq

abbrev TerminalId := Ident .terminal
abbrev NonterminalId := Ident .nonterminal
abbrev ProductionId := Ident .production
abbrev StateId := Ident .state

namespace Ident

variable {kind : Kind}

@[ext] theorem ext_index {i j : Ident kind} (h : i.index = j.index) : i = j := by
  cases i; cases j; simpa using h

/-- The identifier with number `index`, unless the numbers have run out. -/
def ofNat? (kind : Kind) (index : Nat) : Option (Ident kind) :=
  if h : index < 65536 then some ⟨index, h⟩ else none

@[simp] theorem ofNat?_index (i : Ident kind) : ofNat? kind i.index = some i := by
  simp [ofNat?, i.index_lt]

theorem ofNat?_eq_some {index : Nat} {i : Ident kind} :
    ofNat? kind index = some i ↔ i.index = index := by
  constructor
  · intro h
    unfold ofNat? at h
    split at h <;> simp_all
    exact h ▸ rfl
  · rintro rfl
    exact ofNat?_index i

theorem ofNat?_eq_none {index : Nat} : ofNat? kind index = none ↔ 65536 ≤ index := by
  unfold ofNat?
  split <;> simp <;> omega

/-- The identifier with the last sixteen bits of a number. -/
def truncate (kind : Kind) (n : Nat) : Ident kind :=
  ⟨(UInt16.ofNat n).toNat, UInt16.toNat_lt_size _⟩

theorem truncate_index (i : Ident kind) : truncate kind i.index = i :=
  ext_index (UInt16.toNat_ofNat_of_lt i.index_lt)

theorem index_truncate {n : Nat} (h : n < 65536) : (truncate kind n).index = n :=
  UInt16.toNat_ofNat_of_lt h

instance : LT (Ident kind) := ⟨fun i j => i.index < j.index⟩

instance (i j : Ident kind) : Decidable (i < j) :=
  inferInstanceAs (Decidable (i.index < j.index))

theorem lt_iff {i j : Ident kind} : i < j ↔ i.index < j.index := Iff.rfl

/-- The form used in messages: a letter for the kind and at least three digits, with words for the
reserved numbers. -/
def label : {kind : Kind} → Ident kind → String
  | .terminal, ⟨0, _⟩ => "T#EOF"
  | .terminal, ⟨1, _⟩ => "T#Error"
  | .terminal, ⟨n, _⟩ => "T#" ++ Text.padLeft 3 '0' (toString n)
  | .nonterminal, ⟨0, _⟩ => "N#Start"
  | .nonterminal, ⟨n, _⟩ => "N#" ++ Text.padLeft 3 '0' (toString n)
  | .production, ⟨0, _⟩ => "P#Start"
  | .production, ⟨n, _⟩ => "P#" ++ Text.padLeft 3 '0' (toString n)
  | .state, ⟨n, _⟩ => "S#" ++ Text.padLeft 3 '0' (toString n)

end Ident

def TerminalId.eof : TerminalId := ⟨0, by decide⟩

/-- The terminal reserved for error recovery. -/
def TerminalId.error : TerminalId := ⟨1, by decide⟩

/-- The nonterminal `$START`, which derives the start symbol and nothing else. -/
def NonterminalId.start : NonterminalId := ⟨0, by decide⟩

def ProductionId.start : ProductionId := ⟨0, by decide⟩

def StateId.start : StateId := ⟨0, by decide⟩

/-- What may stand on the right side of a rule. -/
inductive Symbol where
  | terminal (t : TerminalId)
  | nonterminal (n : NonterminalId)
  deriving DecidableEq

def Symbol.label : Symbol → String
  | .terminal t => t.label
  | .nonterminal n => n.label

end Lalr
