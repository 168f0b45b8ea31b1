import Std.Data.TreeMap
import Lalr.Item.Kernel

namespace Lalr

structure State where
  id : StateId
  items : ItemSet
  /-- How many items, from the first slot on, make up the kernel. -/
  kernelSize : Nat
  transitions : List (Symbol × StateId)

namespace State

def transition? (q : State) (symbol : Symbol) : Option StateId :=
  (q.transitions.find? (·.1 == symbol)).map (·.2)

def kernelItems (q : State) : List Item :=
  q.items.items.toList.take q.kernelSize

def closureItems (q : State) : List Item :=
  q.items.items.toList.drop q.kernelSize

/-- The places of the items, the state being at a position.  Numbers of states have sixteen bits, so
that a position beyond the last number is taken for another one. -/
def places (q : State) (position : Nat) : List ItemRef :=
  (List.range q.items.size).map (ItemRef.mk (.truncate .state position))

end State

/-- The number under which a kernel is looked up, which it shares with others. -/
def Kernel.code (k : Kernel) : Nat :=
  match k.cores with
  | [] => 0
  | c :: _ => c.code

/-- The owner of a kernel in a list, the first one if it is there more than once. -/
def ownerIn (entries : List (Kernel × StateId)) (k : Kernel) : Option StateId :=
  (entries.find? (·.1 == k)).map (·.2)

/-- Kernels with the states that own them, the last one entered first.  The index leads to the
entries with the code of a kernel, so that only few have to be searched. -/
structure KernelMap where
  entries : List (Kernel × StateId)
  index : Std.TreeMap Nat (List (Kernel × StateId))
  ownerIn_index : ∀ k, ownerIn (index.getD k.code []) k = ownerIn entries k

namespace KernelMap

def empty : KernelMap := ⟨[], ∅, by simp [ownerIn]⟩

def find? (m : KernelMap) (k : Kernel) : Option StateId :=
  ownerIn (m.index.getD k.code []) k

theorem find?_eq (m : KernelMap) (k : Kernel) : m.find? k = ownerIn m.entries k :=
  m.ownerIn_index k

def insert (m : KernelMap) (k : Kernel) (owner : StateId) : KernelMap where
  entries := (k, owner) :: m.entries
  index := m.index.insert k.code ((k, owner) :: m.index.getD k.code [])
  ownerIn_index k' := by
    rw [Std.TreeMap.getD_insert]
    by_cases hcode : k.code = k'.code
    · have := m.ownerIn_index k'
      simp only [hcode, Std.compare_eq_iff_eq, ↓reduceIte]
      unfold ownerIn at this ⊢
      simp only [List.find?_cons]
      split
      · rfl
      · exact this
    · have hne : k ≠ k' := fun h => hcode (congrArg Kernel.code h)
      simp only [Std.compare_eq_iff_eq, hcode, ↓reduceIte, m.ownerIn_index]
      simp [ownerIn, hne]

def toList (m : KernelMap) : List (Kernel × StateId) := m.entries.reverse

end KernelMap

structure Automaton where
  states : Array State
  kernels : KernelMap
  passes : Nat

namespace Automaton

def empty : Automaton := ⟨#[], .empty, 0⟩

def state? (a : Automaton) (q : StateId) : Option State := a.states[q.index]?

def state (a : Automaton) (q : StateId) : Except Violation State :=
  match a.states[q.index]? with
  | none => .error (.unknownState q)
  | some state => .ok state

def item (a : Automaton) (r : ItemRef) : Except Violation Item :=
  match a.states[r.state.index]? with
  | none => .error (.unknownState r.state)
  | some q =>
    match q.items.get? r.slot with
    | none => .error (.danglingLink r.state r.state)
    | some item => .ok item

def find? (a : Automaton) (k : Kernel) : Option StateId := a.kernels.find? k

def places (a : Automaton) : List ItemRef :=
  a.states.toList.zipIdx.flatMap fun q => q.1.places q.2

def modifyItems (a : Automaton) (position : Nat) (f : ItemSet → ItemSet) : Automaton :=
  { a with states := a.states.modify position fun q => { q with items := f q.items } }

end Automaton

end Lalr
