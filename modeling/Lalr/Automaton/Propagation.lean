import Lalr.Automaton.Exploration
import Lalr.Saturation

/-!
Lookaheads.  When all states are known, each item that expects a symbol is linked to the item with
the mark behind it, in the state that the symbol leads to.  Lookaheads then flow along the links,
from item to item in depth, pass after pass over all items until a pass changes nothing.  A
lookahead that grows loses room, so both the flow and the passes come to an end.
-/

namespace Lalr

def State.room (q : State) : Nat :=
  Saturation.totalRoom (fun item => item.lookahead.room) q.items.items.toList

namespace Automaton

/-- The place of an item of state `q` with the mark moved over the next symbol, in the state that
this symbol leads to. -/
def successor (g : Grammar) (states : Array State) (q : State) (item : Item) :
    Except Violation (Option ItemRef) :=
  match item.core.symbolAfterDot g with
  | .error e => .error e
  | .ok none => .ok none
  | .ok (some symbol) =>
    match q.transition? symbol with
    | none => .ok none
    | some target =>
      match states[target.index]?.bind
          fun next => next.items.find? ⟨item.core.production, item.core.dot + 1⟩ with
      | none => .error (.danglingLink q.id target)
      | some slot => .ok (some ⟨target, slot⟩)

/-- Links the items of a state to their successors. -/
def linkState (g : Grammar) (states : Array State) (q : State) : Except Violation State := do
  let successors ← q.items.items.mapM (successor g states q)
  return { q with items := q.items.addLinks successors }

def link (g : Grammar) (a : Automaton) : Except Violation Automaton := do
  let states ← a.states.mapM (linkState g a.states)
  return { a with states }

/-- The automaton of a grammar, before lookaheads have moved. -/
def machine (g : Grammar) : Except Violation Automaton := do
  (← reach g).link g

def room (a : Automaton) : Nat :=
  Saturation.totalRoom State.room a.states.toList

def setLookahead (a : Automaton) (r : ItemRef) (lookahead : TerminalSet) : Automaton :=
  a.modifyItems r.state.index (·.setLookahead r.slot lookahead)

theorem room_setLookahead_lt {a : Automaton} {r : ItemRef} {item : Item} {lookahead : TerminalSet}
    (hitem : a.item r = .ok item) (hlt : lookahead.room < item.lookahead.room) :
    (a.setLookahead r lookahead).room < a.room := by
  unfold Automaton.item at hitem
  split at hitem
  · cases hitem
  · rename_i q hq
    split at hitem
    · cases hitem
    · rename_i item' hget
      cases hitem
      simp only [room, setLookahead, modifyItems, Array.toList_modify]
      refine Saturation.totalRoom_modify_lt (by simpa using hq) ?_
      simp only [State.room, ItemSet.setLookahead, ItemSet.modify, Array.toList_modify]
      exact Saturation.totalRoom_modify_lt (by simpa [ItemSet.get?] using hget) hlt

/-- Gives a lookahead to the items at the places `targets`.  Collects those whose lookahead grew,
the last one first. -/
def pour (lookahead : TerminalSet) :
    List ItemRef → Automaton → List ItemRef → Attempt Violation Automaton (List ItemRef)
  | [], a, grown => .succeed grown a
  | r :: targets, a, grown =>
    match a.item r with
    | .error e => .fail e a
    | .ok item =>
      let (joined, grew) := item.lookahead.absorb lookahead
      if grew then pour lookahead targets (a.setLookahead r joined) (r :: grown)
      else pour lookahead targets a grown

theorem room_pour {lookahead : TerminalSet} {targets : List ItemRef} {a : Automaton}
    {grown grown' : List ItemRef} (h : (pour lookahead targets a grown).outcome = .ok grown') :
    (pour lookahead targets a grown).state.room + grown'.length ≤ a.room + grown.length := by
  induction targets generalizing a grown with
  | nil =>
      simp only [pour, Attempt.succeed, Except.ok.injEq] at h ⊢
      subst h
      exact Nat.le_refl _
  | cons r targets ih =>
      unfold pour at h ⊢
      split
      · rename_i e he
        simp [he, Attempt.fail] at h
      · rename_i item hitem
        simp only [hitem] at h ⊢
        split
        · rename_i hgrew
          rw [if_pos hgrew] at h
          have hlt := room_setLookahead_lt hitem (IdentSet.room_absorb_lt hgrew)
          have := ih h
          simp only [List.length_cons] at this
          omega
        · rename_i hgrew
          rw [if_neg hgrew] at h
          exact ih h

/-- Lets lookaheads flow on from the items at the places in `stack`.  Tells whether any lookahead
has grown, by then or before. -/
def flow (a : Automaton) (changed : Bool) (stack : List ItemRef) :
    Attempt Violation Automaton Bool :=
  match stack with
  | [] => .succeed changed a
  | r :: stack =>
    match a.item r with
    | .error e => .fail e a
    | .ok item =>
      match _h : pour item.lookahead item.links a [] with
      | ⟨.error e, a⟩ => .fail e a
      | ⟨.ok grown, a⟩ => flow a (changed || !grown.isEmpty) (grown ++ stack)
termination_by a.room + stack.length
decreasing_by
  have := room_pour (congrArg Attempt.outcome _h)
  simp only [_h, List.length_nil, List.length_cons, List.length_append] at this ⊢
  omega

/-- The flow never gives room back, and it takes some when it reports a change. -/
theorem room_flow {a : Automaton} {changed changed' : Bool} {stack : List ItemRef}
    (h : (flow a changed stack).outcome = .ok changed') :
    (flow a changed stack).state.room ≤ a.room ∧
      (changed' = changed ∨ (flow a changed stack).state.room < a.room) := by
  fun_induction flow a changed stack with
  | case1 a changed =>
      simp only [Attempt.succeed, Except.ok.injEq] at h ⊢
      exact ⟨Nat.le_refl _, .inl h.symm⟩
  | case2 => simp [Attempt.fail] at h
  | case3 => simp [Attempt.fail] at h
  | case4 a changed r stack item hitem grown b hpour ih =>
      have hroom := room_pour (congrArg Attempt.outcome hpour)
      simp only [hpour, List.length_nil] at hroom
      obtain ⟨hle, hlt⟩ := ih h
      refine ⟨by omega, ?_⟩
      cases grown with
      | nil => exact hlt.imp (by simp) (by omega)
      | cons _ _ =>
          simp only [List.length_cons] at hroom
          exact .inr (by omega)

def pass : List ItemRef → Automaton → Bool → Attempt Violation Automaton Bool
  | [], a, changed => .succeed changed a
  | r :: places, a, changed =>
    match flow a changed [r] with
    | ⟨.error e, a⟩ => .fail e a
    | ⟨.ok changed, a⟩ => pass places a changed

theorem room_pass {places : List ItemRef} {a : Automaton} {changed changed' : Bool}
    (h : (pass places a changed).outcome = .ok changed') :
    (pass places a changed).state.room ≤ a.room ∧
      (changed' = changed ∨ (pass places a changed).state.room < a.room) := by
  induction places generalizing a changed with
  | nil =>
      simp only [pass, Attempt.succeed, Except.ok.injEq] at h ⊢
      exact ⟨Nat.le_refl _, .inl h.symm⟩
  | cons r places ih =>
      unfold pass at h ⊢
      split
      · rename_i e b hflow
        simp [hflow, Attempt.fail] at h
      · rename_i changed₁ b hflow
        simp only [hflow] at h
        have hroom := room_flow (congrArg Attempt.outcome hflow)
        simp only [hflow] at hroom
        have := ih h
        refine ⟨by omega, ?_⟩
        rcases hroom.2 with rfl | hlt
        · exact this.2.imp id (by omega)
        · exact .inr (by omega)

/-- Makes passes until one changes nothing, after `passes` others, and counts them all. -/
def passFrom (a : Automaton) (passes : Nat) : Attempt Violation Automaton Nat :=
  match _h : pass a.places a false with
  | ⟨.error e, a⟩ => .fail e a
  | ⟨.ok true, a⟩ => passFrom a (passes + 1)
  | ⟨.ok false, a⟩ => .succeed (passes + 1) { a with passes := passes + 1 }
termination_by a.room
decreasing_by
  have := room_pass (congrArg Attempt.outcome _h)
  simpa [_h] using this.2

/-- Lets lookaheads flow along the links until they do not change any more, and gives the number of
passes. -/
def propagate (a : Automaton) : Attempt Violation Automaton Nat :=
  passFrom a 0

/-- The automaton of a grammar, its lookaheads complete. -/
def build (g : Grammar) : Except Violation Automaton :=
  match machine g with
  | .error e => .error e
  | .ok a =>
    match a.propagate with
    | ⟨.error e, _⟩ => .error e
    | ⟨.ok _, a⟩ => .ok a

end Automaton

end Lalr
