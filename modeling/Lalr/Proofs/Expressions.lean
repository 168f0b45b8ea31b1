import Lalr.Proofs.Conflicts
import Lalr.Proofs.Grouping
import Lalr.Proofs.Soundness

/-!
Grammars of binary operators: `E ::= x`, and `E ::= E op E` for each operator.  Whatever leads to a
state is a sequence of pairs of an expression and an operator, each waiting for its right side, and
behind them nothing, an atom or an expression.  What is completed can be told from that, and so can
what may follow.
-/

namespace Lalr

structure Operators where
  expression : NonterminalId
  atom : TerminalId
  operators : List TerminalId
  atomRule : ProductionId
  rule : TerminalId → ProductionId

namespace Operators

/-- The grammar has the rules `E ::= x` and `E ::= E op E` for each operator, and no others. -/
structure Describes (s : Operators) (g : Grammar) : Prop where
  start : g.start = s.expression
  atom : g.HasRule s.atomRule s.expression [.terminal s.atom]
  operator : ∀ o ∈ s.operators, g.HasRule (s.rule o) s.expression
    [.nonterminal s.expression, .terminal o, .nonterminal s.expression]
  only : ∀ p n rhs, g.HasRule p n rhs →
    p = .start ∨ p = s.atomRule ∨ ∃ o ∈ s.operators, p = s.rule o

instance (g : Grammar) (p : ProductionId) (n : NonterminalId) (rhs : List Symbol) :
    Decidable (g.HasRule p n rhs) :=
  decidable_of_iff (∃ production ∈ g.production? p, production.lhs = n ∧ production.symbols = rhs)
    Iff.rfl

theorem forall_hasRule_iff {g : Grammar} {P : ProductionId → Prop} :
    (∀ p n rhs, g.HasRule p n rhs → P p) ↔
      ∀ i < g.productions.size, ∀ p ∈ Ident.ofNat? .production i, P p := by
  constructor
  · intro h i hi p hp
    obtain rfl := Ident.ofNat?_eq_some.mp hp
    exact h p _ _ ⟨g.productions[p.index], Array.getElem?_eq_getElem hi, rfl, rfl⟩
  · rintro h p n rhs ⟨production, hp, -, -⟩
    exact h p.index (Array.getElem?_eq_some_iff.mp hp).1 p (Ident.ofNat?_index p)

instance (s : Operators) (g : Grammar) : Decidable (s.Describes g) :=
  decidable_of_iff (g.start = s.expression ∧
      g.HasRule s.atomRule s.expression [.terminal s.atom] ∧
      (∀ o ∈ s.operators, g.HasRule (s.rule o) s.expression
        [.nonterminal s.expression, .terminal o, .nonterminal s.expression]) ∧
      ∀ i < g.productions.size, ∀ p ∈ Ident.ofNat? .production i,
        p = ProductionId.start ∨ p = s.atomRule ∨ ∃ o ∈ s.operators, p = s.rule o)
    ⟨fun ⟨hstart, hatom, hoperator, honly⟩ =>
        ⟨hstart, hatom, hoperator, forall_hasRule_iff.mpr honly⟩,
      fun h => ⟨h.start, h.atom, h.operator, forall_hasRule_iff.mp h.only⟩⟩

/-- The symbols of expressions that wait, each with its operator, for what the operator is applied
to on the right. -/
def front (s : Operators) (ks : List TerminalId) : List Symbol :=
  ks.flatMap fun k => [.nonterminal s.expression, .terminal k]

/-- What is completed behind expressions that wait and one symbol more. -/
def done (s : Operators) (ks : List TerminalId) : Symbol → ItemCore
  | .terminal _ => ⟨s.atomRule, 1⟩
  | .nonterminal _ =>
    match ks.getLast? with
    | none => ⟨.start, 1⟩
    | some k => ⟨s.rule k, 3⟩

section Front

variable {s : Operators} {ks ks' : List TerminalId} {symbol symbol' : Symbol}

theorem front_append_singleton (s : Operators) (ks : List TerminalId) (k : TerminalId) :
    s.front (ks ++ [k]) = s.front ks ++ [.nonterminal s.expression, .terminal k] := by
  simp [front]

theorem front_append_rule (s : Operators) (ks : List TerminalId) (k : TerminalId) :
    s.front (ks ++ [k]) ++ [.nonterminal s.expression] = s.front ks ++
      [.nonterminal s.expression, .terminal k, .nonterminal s.expression] := by
  simp [front]

theorem length_front (s : Operators) (ks : List TerminalId) :
    (s.front ks).length = 2 * ks.length := by
  induction ks with
  | nil => rfl
  | cons k ks ih =>
      rw [front, List.flatMap_cons, List.length_append, ← front, ih, List.length_cons]
      simp only [List.length_cons, List.length_nil]
      omega

theorem front_injective (h : s.front ks = s.front ks') : ks = ks' := by
  induction ks generalizing ks' with
  | nil =>
      have hlength := congrArg List.length h
      rw [length_front, length_front, List.length_nil] at hlength
      exact (List.eq_nil_of_length_eq_zero (by omega)).symm
  | cons k ks ih =>
      cases ks' with
      | nil => cases h
      | cons k' ks' =>
          obtain ⟨-, hrest⟩ := List.cons.inj h
          obtain ⟨hk, hrest⟩ := List.cons.inj hrest
          rw [Symbol.terminal.inj hk, ih hrest]

theorem front_ne (h : s.front ks = s.front ks' ++ [symbol]) : False := by
  have hlength := congrArg List.length h
  rw [List.length_append, length_front, length_front, List.length_singleton] at hlength
  omega

theorem front_inj (h : s.front ks ++ [symbol] = s.front ks' ++ [symbol']) :
    ks = ks' ∧ symbol = symbol' := by
  obtain ⟨hfront, hsymbol⟩ := List.append_inj' h rfl
  exact ⟨front_injective hfront, List.singleton_inj.mp hsymbol⟩

end Front

namespace Describes

variable {s : Operators} {g : Grammar} (hs : s.Describes g) (hg : g.WellFormed)

include hs hg

theorem rule_cases {p : ProductionId} {n : NonterminalId} {rhs : List Symbol}
    (h : g.HasRule p n rhs) :
    p = .start ∧ n = .start ∧ rhs = [.nonterminal s.expression] ∨
      p = s.atomRule ∧ n = s.expression ∧ rhs = [.terminal s.atom] ∨
      ∃ o ∈ s.operators, p = s.rule o ∧ n = s.expression ∧
        rhs = [.nonterminal s.expression, .terminal o, .nonterminal s.expression] := by
  rcases hs.only p n rhs h with rfl | rfl | ⟨o, ho, rfl⟩
  · obtain ⟨rfl, rfl⟩ := h.unique hg.start_rule
    exact .inl ⟨rfl, rfl, by rw [hs.start]⟩
  · obtain ⟨rfl, rfl⟩ := h.unique hs.atom
    exact .inr (.inl ⟨rfl, rfl, rfl⟩)
  · obtain ⟨rfl, rfl⟩ := h.unique (hs.operator o ho)
    exact .inr (.inr ⟨o, ho, rfl, rfl, rfl⟩)

theorem expression_ne : s.expression ≠ .start :=
  hs.start ▸ hg.start_ne

theorem ne_start_of_rule {p : ProductionId} {rhs : List Symbol}
    (h : g.HasRule p s.expression rhs) : p ≠ .start := by
  rintro rfl
  exact hs.expression_ne hg (h.unique hg.start_rule).1

theorem not_mentionsStart : ¬ g.MentionsStart := by
  rintro ⟨p, n, rhs, hrule, hmem⟩
  have hne := (hs.expression_ne hg).symm
  rcases hs.rule_cases hg hrule with ⟨-, -, rfl⟩ | ⟨-, -, rfl⟩ | ⟨o, -, -, -, rfl⟩ <;>
    simp [hne] at hmem

theorem take_of_drop {p : ProductionId} {n m : NonterminalId} {rhs rest : List Symbol} {dot : Nat}
    (h : g.HasRule p n rhs) (hdrop : rhs.drop dot = .nonterminal m :: rest) :
    rhs.take dot = [] ∨
      ∃ o ∈ s.operators, rhs.take dot = [.nonterminal s.expression, .terminal o] := by
  rcases hs.rule_cases hg h with ⟨-, -, rfl⟩ | ⟨-, -, rfl⟩ | ⟨o, ho, -, -, rfl⟩
  · rcases dot with _ | dot
    · exact .inl rfl
    · simp at hdrop
  · rcases dot with _ | dot <;> simp at hdrop
  · rcases dot with _ | _ | _ | dot
    · exact .inl rfl
    · simp at hdrop
    · exact .inr ⟨o, ho, rfl⟩
    · simp at hdrop

/-- What leads to a state, item by item: the expressions that wait, and what the item has seen. -/
theorem front_of_validItem {γ : List Symbol} {c : ItemCore} (h : g.ValidItem γ c) :
    ∃ ks n rhs, ks ⊆ s.operators ∧ g.HasRule c.production n rhs ∧ c.dot ≤ rhs.length ∧
      γ = s.front ks ++ rhs.take c.dot ∧ (c.production = .start → ks = []) := by
  induction h with
  | start =>
      exact ⟨[], _, _, List.nil_subset _, hg.start_rule, Nat.zero_le _, rfl, fun _ => rfl⟩
  | @predict γ rest rhs c n p _ hafter hp ih =>
      obtain ⟨ks, m, rhs', hks, hrule, -, rfl, -⟩ := ih
      have hne := Grammar.ne_start_of_predicted hg (hs.not_mentionsStart hg) hafter hp
      rw [show c = ⟨c.production, c.dot⟩ from rfl, hrule.after] at hafter
      rcases hs.take_of_drop hg hrule hafter with hnil | ⟨o, ho, hpair⟩
      · refine ⟨ks, n, rhs, hks, hp, Nat.zero_le _, ?_, fun heq => absurd heq hne⟩
        simp [hnil]
      · refine ⟨ks ++ [o], n, rhs, ?_, hp, Nat.zero_le _, ?_, fun heq => absurd heq hne⟩
        · exact List.append_subset.mpr ⟨hks, by simpa using ho⟩
        · simp [hpair, front_append_singleton]
  | @advance γ rest c symbol _ hafter ih =>
      obtain ⟨ks, m, rhs, hks, hrule, -, rfl, hstart⟩ := ih
      rw [show c = ⟨c.production, c.dot⟩ from rfl, hrule.after] at hafter
      have hget : rhs[c.dot]? = some symbol := by
        rw [← List.head?_drop, hafter, List.head?_cons]
      refine ⟨ks, m, rhs, hks, hrule, (List.getElem?_eq_some_iff.mp hget).1, ?_, hstart⟩
      rw [ItemCore.advance, List.take_add_one, hget, Option.toList_some, List.append_assoc]

theorem ended_cases {γ : List Symbol} {c : ItemCore} (h : g.ValidItem γ c)
    (hafter : g.after c = []) :
    c = ⟨.start, 1⟩ ∧ γ = [.nonterminal s.expression] ∨
      (∃ ks ⊆ s.operators, c = ⟨s.atomRule, 1⟩ ∧ γ = s.front ks ++ [.terminal s.atom]) ∨
      ∃ ks ⊆ s.operators, ∃ k ∈ s.operators, c = ⟨s.rule k, 3⟩ ∧
        γ = s.front (ks ++ [k]) ++ [.nonterminal s.expression] := by
  obtain ⟨ks, n, rhs, hks, hrule, hle, rfl, hstart⟩ := hs.front_of_validItem hg h
  have hdot : c.dot = rhs.length := by
    have hdrop := hrule.after c.dot
    rw [hafter] at hdrop
    exact Nat.le_antisymm hle (List.drop_eq_nil_iff.mp hdrop.symm)
  rw [hdot, List.take_length]
  rcases hs.rule_cases hg hrule with ⟨hp, -, rfl⟩ | ⟨hp, -, rfl⟩ | ⟨k, hk, hp, -, rfl⟩
  · refine .inl ⟨ItemCore.ext hp hdot, ?_⟩
    rw [hstart hp]
    rfl
  · exact .inr (.inl ⟨ks, hks, ItemCore.ext hp hdot, rfl⟩)
  · refine .inr (.inr ⟨ks, hks, k, hk, ItemCore.ext hp hdot, ?_⟩)
    rw [front_append_rule]

theorem ended_eq_done {γ : List Symbol} {c : ItemCore} (h : g.ValidItem γ c)
    (hafter : g.after c = []) : ∃ ks symbol, γ = s.front ks ++ [symbol] ∧ c = s.done ks symbol := by
  rcases hs.ended_cases hg h hafter with ⟨rfl, rfl⟩ | ⟨ks, -, rfl, rfl⟩ | ⟨ks, -, k, -, rfl, rfl⟩
  · exact ⟨[], _, rfl, rfl⟩
  · exact ⟨ks, _, rfl, rfl⟩
  · exact ⟨ks ++ [k], _, rfl, by simp [done]⟩

theorem ended_unique {γ : List Symbol} {c c' : ItemCore} (h : g.ValidItem γ c)
    (hafter : g.after c = []) (h' : g.ValidItem γ c') (hafter' : g.after c' = []) : c = c' := by
  obtain ⟨ks, symbol, hγ, rfl⟩ := hs.ended_eq_done hg h hafter
  obtain ⟨ks', symbol', hγ', rfl⟩ := hs.ended_eq_done hg h' hafter'
  obtain ⟨rfl, rfl⟩ := front_inj (hγ.symm.trans hγ')
  rfl

theorem expecting_cases {γ : List Symbol} {c : ItemCore} {t : TerminalId} {rest : List Symbol}
    (h : g.ValidItem γ c) (hafter : g.after c = .terminal t :: rest) :
    (t = s.atom ∧ ∃ ks ⊆ s.operators, γ = s.front ks) ∨
      t ∈ s.operators ∧ ∃ ks ⊆ s.operators, γ = s.front ks ++ [.nonterminal s.expression] := by
  obtain ⟨ks, n, rhs, hks, hrule, -, rfl, -⟩ := hs.front_of_validItem hg h
  rw [show c = ⟨c.production, c.dot⟩ from rfl, hrule.after] at hafter
  rcases hs.rule_cases hg hrule with ⟨-, -, rfl⟩ | ⟨-, -, rfl⟩ | ⟨o, ho, -, -, rfl⟩
  · rcases hdot : c.dot with _ | dot <;> simp [hdot] at hafter
  · rcases hdot : c.dot with _ | dot <;> simp [hdot] at hafter
    exact .inl ⟨hafter.1.symm, ks, hks, by simp⟩
  · rcases hdot : c.dot with _ | _ | _ | dot <;> simp [hdot] at hafter
    obtain ⟨rfl, -⟩ := hafter
    exact .inr ⟨ho, ks, hks, rfl⟩

theorem exists_waiting {ks : List TerminalId} (hks : ks ⊆ s.operators) :
    ∃ c, g.ValidLookahead (s.front ks) c .eof ∧ g.after c = [.nonterminal s.expression] := by
  induction ks using List.reverseRecOn with
  | nil => exact ⟨⟨.start, 0⟩, .start, by rw [hg.start_rule.after, hs.start]; rfl⟩
  | append_singleton ks k ih =>
      obtain ⟨hks, hk⟩ := List.append_subset.mp hks
      obtain ⟨c, hc, hafter⟩ := ih hks
      have hrule := hs.operator k (hk (List.mem_singleton_self k))
      have hfirst : g.ValidLookahead (s.front ks) ⟨s.rule k, 0⟩ .eof :=
        .passes hc hafter hrule (.refl [])
      refine ⟨⟨s.rule k, 2⟩, ?_, hrule.after 2⟩
      rw [front_append_singleton]
      exact hfirst.advance_front hrule (show 2 ≤ 3 by decide)

/-- What may follow an expression: the end of the input, and any operator. -/
theorem validLookahead_front {ks : List TerminalId} (hks : ks ⊆ s.operators) {p : ProductionId}
    {rhs : List Symbol} (hp : g.HasRule p s.expression rhs) {t : TerminalId}
    (ht : t = .eof ∨ t ∈ s.operators) : g.ValidLookahead (s.front ks ++ rhs) ⟨p, rhs.length⟩ t := by
  obtain ⟨c, hc, hafter⟩ := hs.exists_waiting hg hks
  have hfirst : g.ValidLookahead (s.front ks) ⟨p, 0⟩ t := by
    rcases ht with rfl | ht
    · exact .passes hc hafter hp (.refl [])
    · have hrule := hs.operator t ht
      exact .begins (.predict hc.validItem hafter hrule) (hrule.after 0) hp (.terminal t _)
  have hdone := hfirst.advance_front hp (Nat.le_refl rhs.length)
  rwa [List.take_length] at hdone

theorem validItem_front {ks : List TerminalId} (hks : ks ⊆ s.operators) {p : ProductionId}
    {rhs : List Symbol} (hp : g.HasRule p s.expression rhs) :
    g.ValidItem (s.front ks) ⟨p, 0⟩ := by
  obtain ⟨c, hc, hafter⟩ := hs.exists_waiting hg hks
  exact .predict hc.validItem hafter hp

section State

variable {a : Automaton} {i : Nat} {q : State} {γ : List Symbol} {t t' : TerminalId}
  {p p' : ProductionId}

theorem ends_unique (hγ : q.Holds g γ) {x y : Item} (hx : q.Ends g x) (hy : q.Ends g y) :
    x = y := by
  have hvalid := hγ.validItem hx.1
  have hvalid' := hγ.validItem hy.1
  exact q.items.core_inj hx.1 hy.1 (hs.ended_unique hg hvalid
    ((Grammar.atEnd_iff (hvalid.production_isSome hg)).mp hx.2) hvalid'
    ((Grammar.atEnd_iff (hvalid'.production_isSome hg)).mp hy.2))

theorem completes_unique (hγ : q.Holds g γ) (h : q.Completes g t p) (h' : q.Completes g t' p') :
    p = p' := by
  obtain ⟨x, hx, rfl, hend, -⟩ := h
  obtain ⟨y, hy, rfl, hend', -⟩ := h'
  rw [hs.ends_unique hg hγ ⟨hx, hend⟩ ⟨hy, hend'⟩]

variable (ha : a.Exact g) (hq : a.states[i]? = some q) (hγ : q.Holds g γ)

include ha hq hγ

theorem completes_cases (h : q.Completes g t p) :
    p = .start ∧ t = .eof ∧ γ = [.nonterminal s.expression] ∨
      (p = s.atomRule ∧ ∃ ks ⊆ s.operators, γ = s.front ks ++ [.terminal s.atom]) ∨
      ∃ ks ⊆ s.operators, ∃ k ∈ s.operators, p = s.rule k ∧
        γ = s.front (ks ++ [k]) ++ [.nonterminal s.expression] := by
  obtain ⟨item, hitem, rfl, hend, ht⟩ := h
  have hvalid := hγ.validItem hitem
  have hafter := (Grammar.atEnd_iff (hvalid.production_isSome hg)).mp hend
  rcases hs.ended_cases hg hvalid hafter with ⟨hc, rfl⟩ | ⟨ks, hks, hc, rfl⟩ |
    ⟨ks, hks, k, hk, hc, rfl⟩
  · obtain ⟨slot, hslot⟩ := Array.getElem?_of_mem hitem
    obtain ⟨γ', -, hlookahead⟩ := (ha.lookahead hq hslot t).mp ht
    have hp := congrArg ItemCore.production hc
    exact .inl ⟨hp, hlookahead.eq_eof hg (hs.not_mentionsStart hg) hp, rfl⟩
  · exact .inr (.inl ⟨congrArg ItemCore.production hc, ks, hks, rfl⟩)
  · exact .inr (.inr ⟨ks, hks, k, hk, congrArg ItemCore.production hc, rfl⟩)

/-- Under what may follow a completed item the state reduces by its production. -/
theorem reduces_of_validLookahead {c : ItemCore} (h : g.ValidLookahead γ c t)
    (hafter : g.after c = []) : q.Reduces g t c.production := by
  obtain ⟨item, hitem, rfl, ht⟩ := ha.exists_item hq hγ h
  have hcompletes : q.Completes g t item.core.production :=
    ⟨item, hitem, rfl, (Grammar.atEnd_iff (h.validItem.production_isSome hg)).mpr hafter, ht⟩
  refine ⟨hcompletes, fun p' hp' hlt => ?_⟩
  rw [hs.completes_unique hg hγ hp' hcompletes] at hlt
  exact Nat.lt_irrefl _ hlt

theorem transition_cases {r : StateId} (h : q.transition? (.terminal t) = some r) :
    (t = s.atom ∧ ∃ ks ⊆ s.operators, γ = s.front ks) ∨
      t ∈ s.operators ∧ ∃ ks ⊆ s.operators, γ = s.front ks ++ [.nonterminal s.expression] := by
  have hmem := List.mem_map_of_mem (f := (·.1)) ((State.transition?_eq_some (ha.nodup hq)).mp h)
  obtain ⟨c, hc, rest, hafter⟩ := (ha.expected hq (.terminal t)).mp hmem
  exact hs.expecting_cases hg ((hγ c).mp hc) hafter

end State

section Decisions

variable {a : Automaton} (ha : a.Exact g) {i : Nat} {q : State} (hq : a.states[i]? = some q)
  {γ : List Symbol} {ks : List TerminalId} {k o t : TerminalId} {p : ProductionId}

include ha hq

theorem not_completes_front (hγ : q.Holds g (s.front ks)) : ¬ q.Completes g t p := by
  intro h
  rcases hs.completes_cases hg ha hq hγ h with ⟨-, -, h⟩ | ⟨-, ks', -, h⟩ | ⟨ks', -, k, -, -, h⟩
  · exact @front_ne s _ [] _ h
  · exact front_ne h
  · exact front_ne h

theorem decides_of_disputes (hon : ∀ o ∈ s.operators, (g.precedenceOn o).isSome = true)
    (hγ : q.Holds g γ) (h : q.Disputes g t) : q.Decides g t := by
  obtain ⟨hshift, p, hp⟩ := h
  obtain ⟨r, hr⟩ := Option.isSome_iff_exists.mp hshift
  rcases hs.transition_cases hg ha hq hγ hr with ⟨-, ks, -, rfl⟩ | ⟨ht, -⟩
  · exact absurd hp (hs.not_completes_front hg ha hq hγ)
  · obtain ⟨p, hreduces⟩ := hp.exists_reduces
    exact ⟨hshift, p, hreduces, .inl (hon t ht)⟩

theorem resolves_front (hks : ks ⊆ s.operators) (hγ : q.Holds g (s.front ks)) :
    ∃ r, q.transition? (.terminal s.atom) = some r ∧ q.Resolves g s.atom (.shift r) := by
  obtain ⟨r, hr⟩ := Parser.exists_transition ha.toCharted hq hγ
    (hs.validItem_front hg hks hs.atom) (hs.atom.after 0)
  exact ⟨r, hr, .shift (fun _ => hs.not_completes_front hg ha hq hγ) hr⟩

theorem resolves_atom (hks : ks ⊆ s.operators)
    (hγ : q.Holds g (s.front ks ++ [.terminal s.atom])) (ht : t = .eof ∨ t ∈ s.operators) :
    q.Resolves g t (.reduce s.atomRule) := by
  refine .reduce (hs.reduces_of_validLookahead hg ha hq hγ
    (hs.validLookahead_front hg hks hs.atom ht) (hs.atom.after 1)) ?_
  rcases hr : q.transition? (.terminal t) with _ | r
  · rfl
  · rcases hs.transition_cases hg ha hq hγ hr with ⟨-, ks', -, h⟩ | ⟨-, ks', -, h⟩
    · exact (front_ne h.symm).elim
    · exact absurd (front_inj h).2 (by simp)

theorem transition_expression (hks : ks ⊆ s.operators)
    (hγ : q.Holds g (s.front ks ++ [.nonterminal s.expression])) (ho : o ∈ s.operators) :
    ∃ r, q.transition? (.terminal o) = some r := by
  have hrule := hs.operator o ho
  have hvalid := (hs.validItem_front hg hks hrule).advance_front hrule (show 1 ≤ 3 by decide)
  exact Parser.exists_transition ha.toCharted hq hγ hvalid (hrule.after 1)

/-- The end of the input being an operator, a shift takes the place of accepting. -/
theorem not_resolves_start (heof : .eof ∈ s.operators) (hon : (g.precedenceOn .eof).isSome = true)
    (hof : g.precedenceOf .start = none) (hγ : q.Holds g γ) :
    ¬ q.Resolves g t (.reduce .start) := by
  intro h
  obtain ⟨hreduces, hdecided⟩ := h.reduce_cases
  obtain ⟨rfl, rfl⟩ : t = .eof ∧ γ = [.nonterminal s.expression] := by
    rcases hs.completes_cases hg ha hq hγ hreduces.1 with
      ⟨-, ht, hγ⟩ | ⟨hp, -⟩ | ⟨-, -, k, hk, hp, -⟩
    · exact ⟨ht, hγ⟩
    · exact absurd hp.symm (hs.ne_start_of_rule hg hs.atom)
    · exact absurd hp.symm (hs.ne_start_of_rule hg (hs.operator k hk))
  obtain ⟨r, hr⟩ := hs.transition_expression hg ha hq (List.nil_subset _)
    (show q.Holds g (s.front [] ++ _) from hγ) heof
  obtain ⟨precedence, hprecedence⟩ := Option.isSome_iff_exists.mp hon
  rcases hdecided with hnone | hdeclared
  · rw [hr] at hnone
    cases hnone
  · rw [hof, hprecedence] at hdeclared
    cases hdeclared

section Ending

variable (heof : .eof ∉ s.operators)

include heof

theorem transition_eof (hγ : q.Holds g (s.front ks ++ [.nonterminal s.expression])) :
    q.transition? (.terminal .eof) = none := by
  rcases hr : q.transition? (.terminal .eof) with _ | r
  · rfl
  · rcases hs.transition_cases hg ha hq hγ hr with ⟨-, ks', -, h⟩ | ⟨hmem, -⟩
    · exact (front_ne h.symm).elim
    · exact absurd hmem heof

theorem resolves_accept (hγ : q.Holds g [.nonterminal s.expression]) :
    q.Resolves g .eof (.reduce .start) := by
  have hrule := hs.start ▸ hg.start_rule
  have hlookahead : g.ValidLookahead [.nonterminal s.expression] ⟨.start, 1⟩ .eof :=
    Grammar.ValidLookahead.advance .start (hrule.after 0)
  exact .reduce (hs.reduces_of_validLookahead hg ha hq hγ hlookahead (hrule.after 1))
    (hs.transition_eof hg ha hq heof (show q.Holds g (s.front [] ++ _) from hγ))

theorem resolves_first (hγ : q.Holds g [.nonterminal s.expression]) (ho : o ∈ s.operators) :
    ∃ r, q.transition? (.terminal o) = some r ∧ q.Resolves g o (.shift r) := by
  obtain ⟨r, hr⟩ := hs.transition_expression hg ha hq (List.nil_subset _) hγ ho
  refine ⟨r, hr, .shift (fun p hp => ?_) hr⟩
  rcases hs.completes_cases hg ha hq hγ hp with ⟨-, rfl, -⟩ | ⟨-, ks', -, h⟩ | ⟨ks', -, k, -, -, h⟩
  · exact heof ho
  · exact absurd (@front_inj s [] _ _ _ h).2 (by simp)
  · exact absurd (@front_inj s [] _ _ _ h).1 (by simp)

end Ending

section Waiting

variable (hks : ks ⊆ s.operators) (hk : k ∈ s.operators)
  (hγ : q.Holds g (s.front (ks ++ [k]) ++ [.nonterminal s.expression]))

include hks hk hγ

theorem reduces_rule (ht : t = .eof ∨ t ∈ s.operators) : q.Reduces g t (s.rule k) := by
  have hrule := hs.operator k hk
  rw [front_append_rule] at hγ
  exact hs.reduces_of_validLookahead hg ha hq hγ (hs.validLookahead_front hg hks hrule ht)
    (hrule.after 3)

theorem resolves_eof (heof : .eof ∉ s.operators) : q.Resolves g .eof (.reduce (s.rule k)) :=
  .reduce (hs.reduces_rule hg ha hq hks hk hγ (.inl rfl)) (hs.transition_eof hg ha hq heof hγ)

/-- Between the operator that waits and the one that comes next precedence decides. -/
theorem resolves_operator (ho : o ∈ s.operators) {resolution : Resolution}
    (h : g.resolution? o (s.rule k) = some resolution) :
    ∃ r, q.transition? (.terminal o) = some r ∧
      q.Resolves g o (resolution.action r (s.rule k)) := by
  have hboth : ks ++ [k] ⊆ s.operators := List.append_subset.mpr ⟨hks, by simpa using hk⟩
  obtain ⟨r, hr⟩ := hs.transition_expression hg ha hq hboth hγ ho
  exact ⟨r, hr, .both (hs.reduces_rule hg ha hq hks hk hγ (.inr ho)) hr
    (Grammar.resolution?_eq_some.mp h).2⟩

end Waiting

end Decisions

end Describes

end Operators

end Lalr
