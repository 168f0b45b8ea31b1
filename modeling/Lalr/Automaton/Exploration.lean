import Lalr.Automaton.Basic
import Lalr.Item.Closure

/-!
The states of a grammar.  From the start state on, every symbol that some item of a state expects
leads to the state whose kernel holds these items with the mark moved.  States found on the way wait
on a stack; the last one found is explored first.  States have numbers of their own, so at most
65536 are ever found.
-/

namespace Lalr

namespace ItemSet

/-- The symbols that items of a list expect, in the order in which they first appear. -/
def expected (g : Grammar) : List Symbol → List Item → Except Violation (List Symbol)
  | seen, [] => .ok seen
  | seen, item :: items => do
    match ← item.core.symbolAfterDot g with
    | some symbol => expected g (if symbol ∈ seen then seen else seen ++ [symbol]) items
    | none => expected g seen items

/-- Adds to a set the items of a list that expect `symbol`, with the mark moved over it. -/
def shiftOver (g : Grammar) (symbol : Symbol) : ItemSet → List Item → Except Violation ItemSet
  | s, [] => .ok s
  | s, item :: items => do
    if (← item.core.symbolAfterDot g) = some symbol then
      shiftOver g symbol (s.add (← item.shift g)).1 items
    else shiftOver g symbol s items

end ItemSet

namespace Automaton

def nextState (a : Automaton) : Except Violation StateId :=
  match Ident.ofNat? .state a.states.size with
  | none => .error .tooManyStates
  | some id => .ok id

def addState (a : Automaton) (kernel : Kernel) (items : ItemSet) :
    Except Violation (Automaton × StateId) :=
  if kernel.isEmpty || items.isEmpty then .error .emptyKernel
  else match a.kernels.find? kernel with
    | some existing => .error (.duplicateState existing)
    | none =>
      match a.nextState with
      | .error e => .error e
      | .ok id =>
        .ok ({ a with
          states := a.states.push ⟨id, items, kernel.cores.length, []⟩
          kernels := a.kernels.insert kernel id }, id)

/-- The state whose kernel items are `items`, and whether it had to be added. -/
def enter (g : Grammar) (a : Automaton) (items : ItemSet) :
    Except Violation (Automaton × StateId × Bool) :=
  let kernel := items.kernel
  match a.kernels.find? kernel with
  | some existing => .ok (a, existing, false)
  | none =>
    match a.nextState with
    | .error e => .error e
    | .ok owner =>
      match items.close g owner with
      | ⟨.error e, _⟩ => .error e
      | ⟨.ok (), closed⟩ =>
        match a.addState kernel closed with
        | .error e => .error e
        | .ok (a, id) => .ok (a, id, true)

/-- Enters the states that the items of a state lead to over each of the given symbols.  Collects
the transitions, and the states that were added, the last one first. -/
def enterAll (g : Grammar) (items : List Item) :
    List Symbol → Automaton → Array (Symbol × StateId) → List StateId →
      Except Violation (Automaton × Array (Symbol × StateId) × List StateId)
  | [], a, transitions, added => .ok (a, transitions, added)
  | symbol :: symbols, a, transitions, added =>
    match ItemSet.shiftOver g symbol ∅ items with
    | .error e => .error e
    | .ok shifted =>
      match a.enter g shifted with
      | .error e => .error e
      | .ok (a, target, isNew) =>
        enterAll g items symbols a (transitions.push (symbol, target))
          (if isNew then target :: added else added)

def setTransitions (a : Automaton) (q : StateId) (transitions : List (Symbol × StateId)) :
    Automaton :=
  { a with states := a.states.modify q.index fun state => { state with transitions } }

def expand (g : Grammar) (a : Automaton) (q : StateId) :
    Except Violation (Automaton × List StateId) :=
  match a.state q with
  | .error e => .error e
  | .ok state =>
    let items := state.items.items.toList
    match ItemSet.expected g [] items with
    | .error e => .error e
    | .ok symbols =>
      match enterAll g items symbols a #[] [] with
      | .error e => .error e
      | .ok (a, transitions, added) =>
        .ok (a.setTransitions q transitions.toList, added)

theorem lt_of_nextState {a : Automaton} {id : StateId} (h : a.nextState = .ok id) :
    a.states.size < 65536 := by
  unfold nextState at h
  split at h
  · cases h
  · rename_i hid
    have := Ident.ofNat?_eq_some.mp hid
    have := id.index_lt
    grind

theorem size_addState {a b : Automaton} {kernel : Kernel} {items : ItemSet} {id : StateId}
    (h : a.addState kernel items = .ok (b, id)) :
    a.states.size < 65536 ∧ b.states.size = a.states.size + 1 := by
  unfold addState at h
  split at h
  · cases h
  · split at h
    · cases h
    · split at h
      · cases h
      · rename_i hnext
        simp only [Except.ok.injEq, Prod.mk.injEq] at h
        obtain ⟨rfl, -⟩ := h
        exact ⟨lt_of_nextState hnext, by simp⟩

/-- Entering a state uses up a number exactly if it adds the state. -/
theorem size_enter {g : Grammar} {a b : Automaton} {items : ItemSet} {id : StateId} {isNew : Bool}
    (h : a.enter g items = .ok (b, id, isNew)) :
    (65536 - b.states.size) + (if isNew then 1 else 0) ≤ 65536 - a.states.size := by
  unfold enter at h
  simp only at h
  split at h
  · simp only [Except.ok.injEq, Prod.mk.injEq] at h
    obtain ⟨rfl, -, rfl⟩ := h
    simp
  · split at h
    · cases h
    · split at h
      · cases h
      · split at h
        · cases h
        · rename_i hadd
          simp only [Except.ok.injEq, Prod.mk.injEq] at h
          obtain ⟨rfl, -, rfl⟩ := h
          have := size_addState hadd
          simp only [↓reduceIte]
          omega

theorem size_enterAll {g : Grammar} {items : List Item} {symbols : List Symbol} {a b : Automaton}
    {transitions transitions' : Array (Symbol × StateId)} {added added' : List StateId}
    (h : enterAll g items symbols a transitions added = .ok (b, transitions', added')) :
    (65536 - b.states.size) + added'.length ≤ (65536 - a.states.size) + added.length := by
  induction symbols generalizing a transitions added with
  | nil =>
      simp only [enterAll, Except.ok.injEq, Prod.mk.injEq] at h
      obtain ⟨rfl, -, rfl⟩ := h
      exact Nat.le_refl _
  | cons symbol symbols ih =>
      unfold enterAll at h
      split at h
      · cases h
      · split at h
        · cases h
        · rename_i hent
          have := size_enter hent
          have := ih h
          split at this <;> simp_all <;> omega

theorem size_expand {g : Grammar} {a b : Automaton} {q : StateId} {added : List StateId}
    (h : a.expand g q = .ok (b, added)) :
    (65536 - b.states.size) + added.length ≤ 65536 - a.states.size := by
  unfold expand at h
  split at h
  · cases h
  · simp only at h
    split at h
    · cases h
    · split at h
      · cases h
      · rename_i hall
        simp only [Except.ok.injEq, Prod.mk.injEq] at h
        obtain ⟨rfl, rfl⟩ := h
        simpa [setTransitions] using size_enterAll hall

/-- Expands the states in `pending` and all that are found from them. -/
def explore (g : Grammar) (a : Automaton) (pending : List StateId) : Except Violation Automaton :=
  match pending with
  | [] => .ok a
  | q :: pending =>
    match _h : a.expand g q with
    | .error e => .error e
    | .ok (a, added) => explore g a (added ++ pending)
termination_by (65536 - a.states.size) + pending.length
decreasing_by
  have := size_expand _h
  simp only [List.length_append, List.length_cons]
  omega

def startItems : ItemSet :=
  (ItemSet.empty.add (.initial .start (.single TerminalId.eof))).1

/-- All states that the grammar reaches. -/
def reach (g : Grammar) : Except Violation Automaton :=
  match empty.enter g startItems with
  | .error e => .error e
  | .ok (a, start, _) => a.explore g [start]

end Automaton

end Lalr
