import Mathlib.Data.Finite.Sum
import Mathlib.Order.WellFounded
import Lalr.Proofs.Progress
import Lalr.Proofs.Reductions

/-!
The parser of a grammar without conflicts stops on every list of tokens.  States are merged, so a
reduction may happen although the next token cannot come.  But its lookahead stands there because of
another string that leads to the same state, and there the token can come.  This excludes chains
that put ever more on the stack, and chains that replace the symbol on top for ever.
-/

namespace Lalr

namespace Grammar

variable {g : Grammar} {t : TerminalId} {front : List Symbol} {x y : Symbol}

/-- With `t` as the next token, the symbol `y` can take the place of `x`: in a right side for `y`
nothing remains behind `x`, and `t` can follow it somewhere. -/
def Climbs (g : Grammar) (t : TerminalId) (x y : Symbol) : Prop :=
  ∃ p n rest front, y = .nonterminal n ∧ g.HasRule p n (x :: rest) ∧ p ≠ .start ∧ g.Erases rest ∧
    g.ValidLookahead front ⟨p, 0⟩ t

/-- After `front`, an item expects `x` as the last of its symbols, and lets `t` come behind them. -/
def Closes (g : Grammar) (t : TerminalId) (front : List Symbol) (x : Symbol) : Prop :=
  ∃ c rest, g.ValidLookahead front c t ∧ g.after c = x :: rest ∧ g.Vanishes rest

theorem Closes.awaits (h : g.Closes t front x) : g.Awaits (front ++ [x]) t := by
  obtain ⟨c, rest, hc, hafter, hv⟩ := h
  refine ⟨c.advance, .inr ⟨.advance hc hafter, ?_⟩⟩
  rwa [after_advance hafter]

theorem Climbs.exists_closes (h : g.Climbs t x y) : ∃ front, g.Closes t front x := by
  obtain ⟨p, n, rest, front, -, rule, -, hrest, hfront⟩ := h
  exact ⟨front, ⟨p, 0⟩, rest, hfront, rule.after 0, hrest.vanishes⟩

theorem Closes.of_climbs (h : g.Closes t front y) (hxy : g.Climbs t x y) : g.Closes t front x := by
  obtain ⟨c, rest, hc, hafter, hv⟩ := h
  obtain ⟨p, n, rest', -, rfl, rule, -, hrest', -⟩ := hxy
  exact ⟨⟨p, 0⟩, rest', .passes hc hafter rule hv, rule.after 0, hrest'.vanishes⟩

end Grammar

instance {kind : Kind} : Finite (Ident kind) :=
  .of_injective (fun i => (⟨i.index, i.index_lt⟩ : Fin 65536)) fun _ _ h =>
    Ident.ext_index (Fin.mk.inj h)

instance : Finite Symbol :=
  .of_surjective (fun i : TerminalId ⊕ NonterminalId => i.elim .terminal .nonterminal) fun
    | .terminal t => ⟨.inl t, rfl⟩
    | .nonterminal n => ⟨.inr n, rfl⟩

namespace Parser

variable {g : Grammar} {a : Automaton} {tables : PackedTables} {q r : StateId} {t : TerminalId}
  {γ δ : List Symbol} {config : Config} {dense : Tables}

/-- A reduction takes place above a string, or takes away its end together with all above. -/
theorem Reduces.append_cases {β v : List Symbol} {x : Symbol}
    (hβ : a.follow? q (β ++ [x]) = some r) (h : Reduces g a tables q t (β ++ [x] ++ v) δ) :
    (∃ front rhs p n, v = front ++ rhs ∧ δ = β ++ [x] ++ (front ++ [.nonterminal n]) ∧
      g.HasRule p n rhs ∧ p ≠ .start ∧ Reduces g a tables r t v (front ++ [.nonterminal n])) ∨
    ∃ front u s p n, β = front ++ u ∧ δ = front ++ [.nonterminal n] ∧
      g.HasRule p n (u ++ x :: v) ∧ p ≠ .start ∧ a.follow? q (front ++ (u ++ x :: v)) = some s ∧
      tables.action s t = .ok (.reduce p) := by
  generalize hw : β ++ [x] ++ v = w at h
  cases h with
  | @rule front rhs s p n path action hp rule =>
      have happend := List.append_eq_append_iff.mp hw
      rcases happend with ⟨front', rfl, rfl⟩ | ⟨u, hu, rfl⟩
      · rw [List.append_assoc, Automaton.follow?_append hβ] at path
        exact .inl ⟨front', rhs, p, n, rfl, by simp, rule, hp, .rule path action hp rule⟩
      · rcases List.eq_nil_or_concat u with rfl | ⟨u, y, rfl⟩
        · rw [List.append_nil] at hu
          subst hu
          rw [List.nil_append, Automaton.follow?_append hβ] at path
          have hreduces : Reduces g a tables r t ([] ++ v) ([] ++ [.nonterminal n]) :=
            .rule path action hp rule
          exact .inl ⟨[], v, p, n, rfl, by simp, rule, hp, hreduces⟩
        · rw [List.concat_eq_append, ← List.append_assoc] at hu
          obtain ⟨rfl, hx⟩ := List.append_inj' hu rfl
          obtain rfl := List.singleton_inj.mp hx
          rw [List.concat_eq_append, ← List.append_cons] at path rule
          exact .inr ⟨front, u, s, p, n, rfl, rfl, rule, hp, path, action⟩

section Plain

variable (hm : tables.MadeFrom g a config dense) (hplain : config.compact = false)

include hm hplain

theorem exists_validLookahead (hg : g.WellFormed) {front rhs : List Symbol} {p : ProductionId}
    {n : NonterminalId} (path : a.follow? .start (front ++ rhs) = some r)
    (action : tables.action r t = .ok (.reduce p)) (rule : g.HasRule p n rhs) :
    g.ValidItem front ⟨p, 0⟩ ∧ ∃ front', a.follow? .start (front' ++ rhs) = some r ∧
      g.ValidLookahead front' ⟨p, 0⟩ t := by
  have ha := hm.exact.toCharted
  obtain ⟨q, hq, hholds⟩ := ha.exists_state path
  obtain ⟨row, -, hrow, -⟩ := hm.rows hq
  obtain ⟨c, γ', rfl, hafter, hcore, hγ', hvalid⟩ :=
    exists_lookahead hm hq hrow (hm.reduce_of_action_plain hplain hrow action)
  obtain ⟨_, _, front₁, hrule₁, hle, hfront₁, hpredicted⟩ := ((hholds c).mp hcore).split hg
  obtain ⟨_, _, front₂, hrule₂, -, rfl, -⟩ := hvalid.validItem.split hg
  obtain ⟨rfl, rfl⟩ := rule.unique hrule₁
  obtain ⟨rfl, rfl⟩ := rule.unique hrule₂
  have hdot : c.dot = rhs.length := by
    have hdrop := rule.after c.dot
    rw [hafter] at hdrop
    exact Nat.le_antisymm hle (List.drop_eq_nil_iff.mp hdrop.symm)
  rw [hdot, List.take_length] at hγ' hvalid
  rw [hdot, List.take_length] at hfront₁
  obtain rfl := List.append_cancel_right hfront₁
  refine ⟨hpredicted, front₂, (ha.follow?_eq_some hq).mpr hγ', ?_⟩
  refine .retreat_append (u := rhs) ?_
  rw [Nat.zero_add, ← hdot]
  exact hvalid

theorem Reduces.exists_path (hg : g.WellFormed) (h : Reduces g a tables .start t γ δ) :
    ∃ s, a.follow? .start δ = some s := by
  cases h with
  | rule path action hp rule =>
      obtain ⟨hfront, -⟩ := exists_validLookahead hm hplain hg path action rule
      obtain ⟨c, n, rest, rhs, hc, hafter, hrule⟩ := hfront.predicted hp
      obtain ⟨rfl, -⟩ := rule.unique hrule
      exact hm.exact.toCharted.exists_follow? (.advance hc hafter)

/-- Reductions above a symbol end.  Then one takes away the symbol alone, and the left side can take
its place, or more than it, and the stack becomes shorter. -/
theorem halts_above (hg : g.WellFormed) {β v : List Symbol} {x : Symbol}
    (hβ : a.follow? .start (β ++ [x]) = some r) (hv : Halts g a tables r t v)
    (herases : g.Erases v)
    (hshorter : ∀ γ s, γ.length ≤ β.length → a.follow? .start γ = some s →
      Halts g a tables .start t γ)
    (hclimbs : ∀ y s, g.Climbs t x y → a.follow? .start (β ++ [y]) = some s →
      Halts g a tables .start t (β ++ [y])) :
    Halts g a tables .start t (β ++ [x] ++ v) := by
  induction hv with
  | intro v _ ih =>
      refine Acc.intro _ fun δ hδ => ?_
      obtain ⟨s, hs⟩ := hδ.exists_path hm hplain hg
      rcases hδ.append_cases hβ with ⟨front, rhs, p, n, rfl, rfl, rule, hp, hreduces⟩ |
        ⟨front, u, s', p, n, rfl, rfl, rule, hp, path, action⟩
      · exact ih _ hreduces (herases.reduce rule hp)
      · rcases u with _ | ⟨y, u⟩
        · rw [List.append_nil] at hclimbs
          obtain ⟨-, front', -, hvalid⟩ := exists_validLookahead hm hplain hg path action rule
          exact hclimbs _ s ⟨p, n, v, front', rfl, rule, hp, herases, hvalid⟩ hs
        · exact hshorter _ s (by simp) hs

end Plain

section Settled

variable (hm : tables.MadeFrom g a config dense) (hshift : dense.counts.shiftReduce = 0)
  (hreduce : dense.counts.reduceReduce = 0)

include hm hshift hreduce

theorem transGen_of_climbs {front : List Symbol} {x y : Symbol} (hy : g.Closes t front y)
    (h : g.Climbs t x y) :
    Relation.TransGen (Reduces g a tables .start t) (front ++ [x]) (front ++ [y]) := by
  obtain ⟨p, n, rest, -, rfl, rule, hp, ⟨forest, hforest, hleaves, hstart⟩, -⟩ := h
  have hdone := hy.awaits.validLookahead rule
  have hawaits := hy.awaits.of_reduced rule
  obtain ⟨s, hs, haction⟩ := exists_reduce hm hshift hreduce rule hdone
  refine Relation.TransGen.tail' ?_ (Reduces.rule hs haction hp rule)
  rw [List.append_cons front x rest] at hawaits ⊢
  exact reduces_forest hm hshift hreduce hforest hleaves hstart hawaits

/-- The symbol on top is not replaced for ever: after the string behind the first lookahead, the
whole cycle would be a chain of reductions that the next token cannot end. -/
theorem wellFounded_climbs (hg : g.WellFormed) (t : TerminalId) :
    WellFounded fun y x => g.Climbs t x y := by
  have hchain {front x y} (h : Relation.TransGen (g.Climbs t) x y) (hy : g.Closes t front y) :
      Relation.TransGen (Reduces g a tables .start t) (front ++ [x]) (front ++ [y]) := by
    induction h with
    | single h => exact transGen_of_climbs hm hshift hreduce hy h
    | tail _ h ih =>
        exact (ih (hy.of_climbs h)).trans (transGen_of_climbs hm hshift hreduce hy h)
  have hirrefl (x : Symbol) : ¬ Relation.TransGen (g.Climbs t) x x := by
    intro hcycle
    obtain ⟨y, hxy, -⟩ := Relation.TransGen.head'_iff.mp hcycle
    obtain ⟨front, hfront⟩ := hxy.exists_closes
    exact (halts_of_awaits hm hshift hreduce hg hfront.awaits).not_transGen (hchain hcycle hfront)
  let above (y x : Symbol) : Prop := Relation.TransGen (g.Climbs t) x y
  have : IsTrans Symbol above := ⟨fun _ _ _ h h' => h'.trans h⟩
  have : Std.Irrefl above := ⟨hirrefl⟩
  exact Subrelation.wf (fun h => Relation.TransGen.single h)
    (Finite.wellFounded_of_trans_of_irrefl above)

variable (hplain : config.compact = false) (hg : g.WellFormed)

include hplain hg

theorem halts_nil (path : a.follow? .start γ = some r) : Halts g a tables r t [] := by
  refine Acc.intro _ fun δ hδ => ?_
  suffices hnil : Halts g a tables r t [] from hnil.inv hδ
  generalize hw : ([] : List Symbol) = w at hδ
  cases hδ with
  | @rule front rhs s p n path' action hp rule =>
      obtain ⟨rfl, rfl⟩ := List.append_eq_nil_iff.mp hw.symm
      obtain rfl : r = s := Option.some.inj path'
      rw [← List.append_nil γ] at path
      obtain ⟨-, front, hfront, hvalid⟩ := exists_validLookahead hm hplain hg path action rule
      have hawaits : g.Awaits (front ++ []) t := by
        rw [List.append_nil]
        exact ⟨_, .inr ⟨hvalid, by rw [rule.after]; exact .refl []⟩⟩
      rw [List.append_nil] at hfront
      exact .of_append hfront (halts_of_awaits hm hshift hreduce hg hawaits)

/-- The first induction is on the length of the string, the second on what can take the place of its
last symbol. -/
theorem halts_of_follow? (path : a.follow? .start γ = some r) : Halts g a tables .start t γ := by
  induction hlength : γ.length using Nat.strong_induction_on generalizing γ r with
  | _ length ih =>
      rcases List.eq_nil_or_concat γ with rfl | ⟨β, x, rfl⟩
      · exact halts_nil hm hshift hreduce hplain hg (γ := []) rfl
      · rw [List.concat_eq_append] at path hlength ⊢
        induction x using (wellFounded_climbs hm hshift hreduce hg t).induction generalizing r with
        | _ x ihClimbs =>
            have hlt : β.length < length := by
              rw [← hlength, List.length_append]
              exact Nat.lt_succ_self _
            rw [← List.append_nil (β ++ [x])]
            refine halts_above hm hplain hg path
              (halts_nil hm hshift hreduce hplain hg path) (Grammar.erases_nil g)
              (fun γ s hle hs => ih γ.length (Nat.lt_of_le_of_lt hle hlt) hs rfl)
              fun y s hy hs => ihClimbs y hy hs ?_
            rw [← hlength, List.length_append, List.length_append]
            rfl

/-- The parser comes to a round that is its last.  The induction is on the input, and for each token
on the chain of reductions before it. -/
theorem exists_last {stack : List Frame} (hstack : Stacked a γ stack) (input : List TerminalId) :
    ∃ events d, Reaches g tables ⟨stack, input⟩ events d ∧
      ∀ event e, step g tables d ≠ .next event e := by
  induction input generalizing γ stack with
  | nil => exact ⟨[], _, .refl _, nofun⟩
  | cons t input ih =>
      have hhalts : Halts g a tables .start t γ :=
        halts_of_follow? hm hshift hreduce hplain hg (hstack.top_eq hm.startState)
      induction hhalts generalizing stack with
      | intro γ _ ihHalts =>
          by_cases hnext : ∃ event e, step g tables ⟨stack, t :: input⟩ = .next event e
          · obtain ⟨event, e, hstep⟩ := hnext
            rcases step_next hg hm.exact.toCharted hm.toDrives hstack hstep with
              ⟨t', rest, s, hinput, -, rfl, rfl, hstacked⟩ |
              ⟨t', rest, item, n, rhs, front, s, hinput, haction, -, -, hp, hrule, -, rfl, -, rfl,
                rfl, hstacked⟩
            · cases hinput
              obtain ⟨events, d, hreaches, hlast⟩ := ih hstacked
              exact ⟨_, d, .step hstep hreaches, hlast⟩
            · cases hinput
              obtain ⟨events, d, hreaches, hlast⟩ :=
                ihHalts _ (.rule (hstack.top_eq hm.startState) haction hp hrule) hstacked
              exact ⟨_, d, .step hstep hreaches, hlast⟩
          · exact ⟨[], _, .refl _, fun event e hstep => hnext ⟨event, e, hstep⟩⟩

end Settled

/-- The parser of a grammar without conflicts stops on every list of tokens: it comes to a last
round, and rounds beyond that one change nothing. -/
theorem stops_of_settled {declarations : List Declaration} {g : Grammar}
    (hg : Grammar.define declarations = .ok g) {config : Config} (hplain : config.compact = false)
    {sink reports : Diagnostics} {generated : Generated}
    (h : config.generate g sink = ⟨.ok generated, reports⟩)
    (hshift : generated.summary.counts.shiftReduce = 0)
    (hreduce : generated.summary.counts.reduceReduce = 0) :
    ∃ tables, generated.pack = .ok tables ∧ ∀ tokens, ∃ events d,
      Reaches g tables (start tokens) events d ∧ (∀ event e, step g tables d ≠ .next event e) ∧
      ∃ outcome trace, outcome ≠ .failed .stepLimit ∧
        ∀ rounds, events.length < rounds →
          run g tables rounds (start tokens) [] = (outcome, trace) := by
  have hwell := Grammar.wellFormed_of_define hg
  obtain ⟨tables, dense, hpack, hm, hcounts⟩ := Config.exists_pack hwell h
  rw [← hcounts] at hshift hreduce
  refine ⟨tables, hpack, fun tokens => ?_⟩
  obtain ⟨events, d, hreaches, hlast⟩ :=
    exists_last hm hshift hreduce hplain hwell .nil (tokens ++ [.eof])
  refine ⟨events, d, hreaches, hlast, ?_⟩
  have hended : (run g tables (events.length + 1) (start tokens) []).1 ≠ .failed .stepLimit := by
    intro hlimit
    rw [Reaches.run_eq (c := start tokens) hreaches 1 [], run] at hlimit
    split at hlimit
    · rename_i event e hstep
      exact absurd hstep (hlast event e)
    · cases hlimit
    · rename_i event failure hstep
      cases hlimit
      obtain ⟨γ, hγ⟩ := Stacked.of_reaches hwell hm.exact.toCharted hm.toDrives hreaches .nil
      rcases hγ.step_failed hwell hm hstep with ⟨hend, -⟩ | ⟨t, rest, -, herror, -⟩
      · cases hend
      · cases herror
  exact ⟨_, _, hended, fun rounds hlt => run_stable hended hlt⟩

/-- The grammar of `S ::= a A d`, `S ::= b A e` and `A ::= c`.  Behind `c` the states for `d` and
for `e` are one. -/
def merged : List Declaration :=
  [.terminal "a" none, .terminal "b" none, .terminal "c" none, .terminal "d" none,
    .terminal "e" none, .nonterminal "S", .nonterminal "A",
    .rule (.nth 1) [.terminal 2, .nonterminal 2, .terminal 5] none,
    .rule (.nth 1) [.terminal 3, .nonterminal 2, .terminal 6] none,
    .rule (.nth 2) [.terminal 4] none]

/-- On `a c e` the parser reduces by `A ::= c` before it stops, although `e` cannot come. -/
theorem stops_of_settled_merged :
    ∃ g tables events d, ∃ generated : Generated, Grammar.define merged = .ok g ∧
      generated.pack = .ok tables ∧ generated.summary.counts.shiftReduce = 0 ∧
      generated.summary.counts.reduceReduce = 0 ∧
      (run g tables 20 (start [.nth 2, .nth 4, .nth 6]) []).2.getLast? = some (.reduce (.nth 3)) ∧
      Reaches g tables (start [.nth 2, .nth 4, .nth 6]) events d ∧
      ∀ event e, step g tables d ≠ .next event e := by
  have hrun : (Config.tablesOf {} merged).any (fun (g, generated, tables) =>
      generated.summary.counts.shiftReduce == 0 && generated.summary.counts.reduceReduce == 0 &&
        (run g tables 20 (start [.nth 2, .nth 4, .nth 6]) []).2.getLast? ==
          some (.reduce (.nth 3))) = true := by
    decide +kernel
  obtain ⟨⟨g, generated, tables⟩, htables, hchecks⟩ := (Option.any_eq_true _ _).mp hrun
  simp only [Bool.and_eq_true, beq_iff_eq] at hchecks
  obtain ⟨⟨hshift, hreduce⟩, htrace⟩ := hchecks
  obtain ⟨hg, ⟨reports, hgenerate⟩, hpack⟩ := Config.tablesOf_eq_some htables
  obtain ⟨tables', hpack', hall⟩ := stops_of_settled hg rfl hgenerate hshift hreduce
  rw [hpack, Except.ok.injEq] at hpack'
  subst hpack'
  obtain ⟨events, d, hreaches, hlast, -⟩ := hall [.nth 2, .nth 4, .nth 6]
  exact ⟨g, tables, events, d, generated, hg, hpack, hshift, hreduce, htrace, hreaches, hlast⟩

end Parser

end Lalr
