import Lalr.Proofs.Generation

namespace Lalr.Parser

/-- The rounds from one configuration to another, with what is done in them. -/
inductive Reaches (g : Grammar) (tables : PackedTables) :
    Configuration → List Event → Configuration → Prop
  | refl (c : Configuration) : Reaches g tables c [] c
  | step {c d e : Configuration} {event : Event} {events : List Event}
      (h : Parser.step g tables c = .next event d) (rest : Reaches g tables d events e) :
      Reaches g tables c (event :: events) e

/-- The parser accepts a list of tokens with a tree, given rounds enough. -/
def Accepts (g : Grammar) (tables : PackedTables) (tokens : List TerminalId) (tree : ParseTree)
    (trace : List Event) : Prop :=
  ∃ rounds, run g tables rounds (start tokens) [] = (.accepted tree, trace)

/-- The productions that are reduced by, in order. -/
def reductions (trace : List Event) : List ProductionId :=
  trace.filterMap fun
    | .reduce p => some p
    | _ => none

variable {g : Grammar} {tables : PackedTables}

theorem Reaches.trans {c d e : Configuration} {events events' : List Event}
    (h : Reaches g tables c events d) (h' : Reaches g tables d events' e) :
    Reaches g tables c (events ++ events') e := by
  induction h with
  | refl => exact h'
  | step hstep _ ih => exact .step hstep (ih h')

theorem reaches_of_run {rounds : Nat} {c : Configuration} {before trace : List Event}
    {tree : ParseTree} (h : run g tables rounds c before = (.accepted tree, trace)) :
    ∃ events d, Reaches g tables c events d ∧ step g tables d = .accepted tree ∧
      trace = before.reverse ++ events ++ [.accept] := by
  induction rounds generalizing c before with
  | zero => cases h
  | succ rounds ih =>
      unfold run at h
      split at h
      · rename_i event d hstep
        obtain ⟨events, e, hreaches, haccept, rfl⟩ := ih h
        exact ⟨event :: events, e, .step hstep hreaches, haccept, by simp⟩
      · rename_i tree' hstep
        cases h
        exact ⟨[], c, .refl c, hstep, by simp⟩
      · cases h

theorem Reaches.run_eq {c d : Configuration} {events : List Event} (h : Reaches g tables c events d)
    (rounds : Nat) (before : List Event) :
    run g tables (events.length + rounds) c before =
      run g tables rounds d (events.reverse ++ before) := by
  induction h generalizing before with
  | refl c => simp
  | @step c d e event events hstep _ ih =>
      rw [List.length_cons, Nat.add_right_comm, run, hstep]
      change run g tables (events.length + rounds) d (event :: before) = _
      rw [ih]
      simp

theorem run_stable {rounds rounds' : Nat} {c : Configuration} {before : List Event}
    (h : (run g tables rounds c before).1 ≠ .failed .stepLimit) (hle : rounds ≤ rounds') :
    run g tables rounds' c before = run g tables rounds c before := by
  induction rounds generalizing rounds' c before with
  | zero => exact absurd rfl h
  | succ rounds ih =>
      obtain ⟨rounds', rfl⟩ := Nat.exists_eq_add_one_of_ne_zero (Nat.ne_zero_of_lt hle)
      rw [run, run]
      rw [run] at h
      split
      · rename_i event d hstep
        rw [hstep] at h
        exact ih h (Nat.le_of_succ_le_succ hle)
      · rfl
      · rfl

theorem run_unique (rounds rounds' : Nat) {c : Configuration} {before : List Event}
    (h : (run g tables rounds c before).1 ≠ .failed .stepLimit)
    (h' : (run g tables rounds' c before).1 ≠ .failed .stepLimit) :
    run g tables rounds c before = run g tables rounds' c before := by
  rcases Nat.le_total rounds rounds' with hle | hle
  · exact (run_stable h hle).symm
  · exact run_stable h' hle

theorem accepts_iff {tokens : List TerminalId} {tree : ParseTree} {trace : List Event} :
    Accepts g tables tokens tree trace ↔ ∃ events d, Reaches g tables (start tokens) events d ∧
      step g tables d = .accepted tree ∧ trace = events ++ [.accept] := by
  constructor
  · rintro ⟨rounds, h⟩
    exact reaches_of_run h
  · rintro ⟨events, d, hreaches, haccept, rfl⟩
    refine ⟨events.length + 1, ?_⟩
    rw [hreaches.run_eq, run, haccept]
    simp

theorem Accepts.unique {tokens : List TerminalId} {tree tree' : ParseTree}
    {trace trace' : List Event} (h : Accepts g tables tokens tree trace)
    (h' : Accepts g tables tokens tree' trace') : tree = tree' ∧ trace = trace' := by
  obtain ⟨rounds, h⟩ := h
  obtain ⟨rounds', h'⟩ := h'
  have hrun := run_unique rounds rounds' (by rw [h]; nofun) (by rw [h']; nofun)
  rw [h, h'] at hrun
  cases hrun
  exact ⟨rfl, rfl⟩

def Outcome.failure? : Outcome → Option Failure
  | .accepted _ => none
  | .failed failure => some failure

theorem exists_accepts_of_run (rounds : Nat) {tokens : List TerminalId}
    (h : (run g tables rounds (start tokens) []).1.failure? = none) :
    ∃ tree trace, Accepts g tables tokens tree trace := by
  rcases hrun : run g tables rounds (start tokens) [] with ⟨tree | failure, trace⟩
  · exact ⟨tree, trace, rounds, hrun⟩
  · rw [hrun] at h
    cases h

theorem not_accepts_of_run (rounds : Nat) {tokens : List TerminalId} {failure : Failure}
    (h : (run g tables rounds (start tokens) []).1.failure? = some failure)
    (hne : failure ≠ .stepLimit) (tree : ParseTree) (trace : List Event) :
    ¬ Accepts g tables tokens tree trace := by
  rintro ⟨rounds', h'⟩
  have hended : (run g tables rounds (start tokens) []).1 ≠ .failed .stepLimit := by
    intro hlimit
    rw [hlimit] at h
    cases h
    exact hne rfl
  have hrun := run_unique rounds rounds' hended (by rw [h']; nofun)
  rw [hrun, h'] at h
  cases h

theorem not_accepts_of_reaches {tokens : List TerminalId} {events : List Event} {d : Configuration}
    (h : Reaches g tables (start tokens) events d) {event : Option Event} {failure : Failure}
    (hfailed : step g tables d = .failed event failure) (hne : failure ≠ .stepLimit)
    (tree : ParseTree) (trace : List Event) : ¬ Accepts g tables tokens tree trace := by
  refine not_accepts_of_run (events.length + 1) ?_ hne tree trace
  rw [h.run_eq, run, hfailed]
  rfl

/-- The frames stand for the symbols of a string that leads from the start state to their states. -/
inductive Stacked (a : Automaton) : List Symbol → List Frame → Prop
  | nil : Stacked a [] []
  | push {γ : List Symbol} {stack : List Frame} {symbol : Symbol} {s : StateId}
      {tree : ParseTree} (below : Stacked a γ stack)
      (path : a.follow? .start (γ ++ [symbol]) = some s) :
      Stacked a (γ ++ [symbol]) (⟨s, tree⟩ :: stack)

variable {a : Automaton} {γ : List Symbol} {stack : List Frame}

theorem Stacked.length_eq (h : Stacked a γ stack) : stack.length = γ.length := by
  induction h with
  | nil => rfl
  | push _ _ ih => simp [ih]

theorem Stacked.drop {u v : List Symbol} (h : Stacked a (u ++ v) stack) :
    Stacked a u (stack.drop v.length) := by
  induction v using List.reverseRecOn generalizing stack with
  | nil => simpa using h
  | append_singleton v x ih =>
      rw [← List.append_assoc] at h
      generalize hw : u ++ v ++ [x] = w at h
      cases h with
      | nil => simp at hw
      | push below path =>
          obtain ⟨rfl, -⟩ := List.append_inj' hw rfl
          rw [List.length_append, List.length_singleton, List.drop_succ_cons]
          exact ih below

theorem Stacked.top_eq (hd : tables.startState = .start) (h : Stacked a γ stack) :
    a.follow? .start γ = some (top tables stack) := by
  cases h with
  | nil => rw [top, hd, Automaton.follow?]
  | push _ path => exact path

/-- The state on top of the stack holds the items that are valid for what lies on the stack. -/
theorem Stacked.exists_state (ha : a.Charted g) (hd : tables.startState = .start)
    (h : Stacked a γ stack) :
    ∃ q, a.states[(top tables stack).index]? = some q ∧ q.Holds g γ :=
  ha.exists_state (h.top_eq hd)

theorem Stacked.push_transition (hd : tables.startState = .start) (h : Stacked a γ stack)
    {q : State} (hq : a.states[(top tables stack).index]? = some q) {symbol : Symbol} {s : StateId}
    (hs : q.transition? symbol = some s) (tree : ParseTree) :
    Stacked a (γ ++ [symbol]) (⟨s, tree⟩ :: stack) :=
  .push h (Automaton.follow?_snoc (h.top_eq hd) hq hs)

theorem exists_transition (ha : a.Charted g) {i : Nat} {q : State} (hq : a.states[i]? = some q)
    (hγ : q.Holds g γ) {c : ItemCore} (hc : g.ValidItem γ c) {symbol : Symbol} {rest : List Symbol}
    (hafter : g.after c = symbol :: rest) : ∃ s, q.transition? symbol = some s := by
  obtain ⟨⟨x, s⟩, hs, rfl⟩ :=
    List.mem_map.mp ((ha.expected hq symbol).mpr ⟨c, (hγ c).mpr hc, rest, hafter⟩)
  exact ⟨s, (State.transition?_eq_some (ha.nodup hq)).mpr hs⟩

theorem reduce_next (hg : g.WellFormed) (ha : a.Charted g) (hd : tables.Drives g a)
    {c : Configuration} (h : Stacked a γ c.stack) {item : ItemCore} (hitem : g.ValidItem γ item)
    (hafter : g.after item = []) (hp : item.production ≠ .start) :
    ∃ n rhs front s, g.HasRule item.production n rhs ∧ item.dot = rhs.length ∧ γ = front ++ rhs ∧
      g.ValidItem front ⟨item.production, 0⟩ ∧
      Parser.reduce g tables c item.production = .next (.reduce item.production)
        ⟨⟨s, .node item.production ((c.stack.take rhs.length).reverse.map (·.tree))⟩ ::
          c.stack.drop rhs.length, c.input⟩ ∧
      ∀ tree, Stacked a (front ++ [.nonterminal n]) (⟨s, tree⟩ :: c.stack.drop rhs.length) := by
  obtain ⟨n, rhs, front, hrule, hle, hγ, hfront⟩ := hitem.split hg
  have hdot : item.dot = rhs.length := by
    have hdrop := hrule.after item.dot
    rw [hafter] at hdrop
    exact Nat.le_antisymm hle (List.drop_eq_nil_iff.mp hdrop.symm)
  rw [hdot, List.take_length] at hγ
  subst hγ
  have hbelow := h.drop
  obtain ⟨q, hq, hholds⟩ := hbelow.exists_state ha hd.startState
  obtain ⟨c', m, rest, rhs', hc', hafter', hrule'⟩ := hfront.predicted hp
  obtain ⟨rfl, rfl⟩ := hrule.unique hrule'
  obtain ⟨s, hs⟩ := exists_transition ha hq hholds hc' hafter'
  refine ⟨n, rhs, front, s, hrule, hdot, rfl, hfront, ?_,
    fun tree => hbelow.push_transition hd.startState hq hs tree⟩
  obtain ⟨production, hproduction, rfl, rfl⟩ := hrule
  have hlength : production.length = production.symbols.length := by
    simp [Rule.length, Rule.symbols]
  have hlt : ¬ c.stack.length < production.length := by
    rw [h.length_eq, List.length_append, hlength]
    omega
  unfold Parser.reduce
  simp only [hproduction, if_neg hlt]
  rw [hlength, hd.goto hq, hs]

theorem step_next (hg : g.WellFormed) (ha : a.Charted g) (hd : tables.Drives g a)
    {c d : Configuration} (h : Stacked a γ c.stack) {event : Event}
    (hstep : step g tables c = .next event d) :
    (∃ t rest s, c.input = t :: rest ∧ tables.action (top tables c.stack) t = .ok (.shift s) ∧
      event = .shift s ∧ d = ⟨⟨s, .token t⟩ :: c.stack, rest⟩ ∧
      Stacked a (γ ++ [.terminal t]) d.stack) ∨
    ∃ t rest item n rhs front s, c.input = t :: rest ∧
      tables.action (top tables c.stack) t = .ok (.reduce item.production) ∧
      g.ValidItem γ item ∧ g.after item = [] ∧ item.production ≠ .start ∧
      g.HasRule item.production n rhs ∧ item.dot = rhs.length ∧ γ = front ++ rhs ∧
      g.ValidItem front ⟨item.production, 0⟩ ∧ event = .reduce item.production ∧
      d = ⟨⟨s, .node item.production ((c.stack.take rhs.length).reverse.map (·.tree))⟩ ::
        c.stack.drop rhs.length, c.input⟩ ∧ Stacked a (front ++ [.nonterminal n]) d.stack := by
  obtain ⟨q, hq, hholds⟩ := h.exists_state ha hd.startState
  unfold step at hstep
  split at hstep
  · cases hstep
  · rename_i t rest hinput
    simp only at hstep
    split at hstep
    · cases hstep
    · cases hstep
    · rename_i s haction
      cases hstep
      refine .inl ⟨t, rest, s, hinput, haction, rfl, rfl, ?_⟩
      exact h.push_transition hd.startState hq
        ((State.transition?_eq_some (ha.nodup hq)).mpr (hd.shift hq haction)) _
    · rename_i p haction
      obtain ⟨item, hitem, rfl, hafter⟩ := hd.reduce hq haction
      have hvalid := hholds.validItem hitem
      split at hstep
      · split at hstep <;> cases hstep
      · rename_i hp
        rw [hd.startProduction] at hp
        obtain ⟨n, rhs, front, s, hrule, hdot, hγ, hfront, hreduce, hstacked⟩ :=
          reduce_next hg ha hd h hvalid hafter hp
        rw [hreduce] at hstep
        cases hstep
        exact .inr ⟨t, rest, item.core, n, rhs, front, s, hinput, haction, hvalid, hafter, hp,
          hrule, hdot, hγ, hfront, rfl, rfl, hstacked _⟩

theorem Stacked.of_step (hg : g.WellFormed) (ha : a.Charted g) (hd : tables.Drives g a)
    {c d : Configuration} (h : Stacked a γ c.stack) {event : Event}
    (hstep : step g tables c = .next event d) : ∃ γ', Stacked a γ' d.stack := by
  rcases step_next hg ha hd h hstep with ⟨t, rest, s, -, -, -, -, hstacked⟩ |
    ⟨t, rest, item, n, rhs, front, s, -, -, -, -, -, -, -, -, -, -, -, hstacked⟩
  · exact ⟨_, hstacked⟩
  · exact ⟨_, hstacked⟩

theorem Stacked.of_reaches (hg : g.WellFormed) (ha : a.Charted g) (hd : tables.Drives g a)
    {c d : Configuration} {events : List Event} (hreaches : Reaches g tables c events d)
    (h : Stacked a γ c.stack) : ∃ γ', Stacked a γ' d.stack := by
  induction hreaches generalizing γ with
  | refl => exact ⟨γ, h⟩
  | step hstep _ ih =>
      obtain ⟨γ', h'⟩ := h.of_step hg ha hd hstep
      exact ih h'

theorem reduce_cases (g : Grammar) (tables : PackedTables) (c : Configuration) (p : ProductionId) :
    (∃ d, Parser.reduce g tables c p = .next (.reduce p) d) ∨
      ∃ failure, Parser.reduce g tables c p = .failed (some (.reduce p)) failure := by
  unfold Parser.reduce
  split
  · exact .inr ⟨_, rfl⟩
  · split
    · exact .inr ⟨_, rfl⟩
    · simp only
      split
      · exact .inr ⟨_, rfl⟩
      · exact .inr ⟨_, rfl⟩
      · exact .inl ⟨_, rfl⟩

/-- The parser accepts when it reduces by the start production. -/
theorem step_accepted {c : Configuration} {tree : ParseTree}
    (h : step g tables c = .accepted tree) :
    ∃ t rest s below, c.input = t :: rest ∧ c.stack = ⟨s, tree⟩ :: below ∧
      tables.action (top tables c.stack) t = .ok (.reduce tables.startProduction) := by
  unfold step at h
  split at h
  · cases h
  · rename_i t rest hinput
    simp only at h
    split at h
    · cases h
    · cases h
    · cases h
    · rename_i p haction
      split at h
      · rename_i hp
        subst hp
        split at h
        · cases h
        · rename_i frame below hstack
          cases h
          exact ⟨t, rest, frame.state, below, hinput, hstack, haction⟩
      · rcases reduce_cases g tables c p with ⟨d, hreduce⟩ | ⟨failure, hreduce⟩
        · rw [hreduce] at h
          cases h
        · rw [hreduce] at h
          cases h

theorem step_syntaxError {c : Configuration} {t : TerminalId} {s : StateId}
    (h : step g tables c = .failed none (.syntaxError t s)) :
    ∃ rest, c.input = t :: rest ∧ tables.action (top tables c.stack) t = .ok .error := by
  unfold step at h
  split at h
  · cases h
  · rename_i t' rest hinput
    simp only at h
    split at h
    · cases h
    · rename_i haction
      cases h
      exact ⟨rest, hinput, haction⟩
    · cases h
    · rename_i p haction
      split at h
      · split at h <;> cases h
      · rcases reduce_cases g tables c p with ⟨d, hreduce⟩ | ⟨failure, hreduce⟩
        · rw [hreduce] at h
          cases h
        · rw [hreduce] at h
          cases h

end Lalr.Parser
