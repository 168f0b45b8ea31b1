namespace Lalr

inductive Associativity where
  | left
  | right
  | nonassoc
  deriving DecidableEq

def Associativity.word : Associativity → String
  | .left => "left"
  | .right => "right"
  | .nonassoc => "nonassoc"

structure Precedence where
  priority : Nat
  associativity : Associativity
  deriving DecidableEq

end Lalr
