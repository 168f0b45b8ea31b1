import Lalr.Proofs.Soundness

namespace Lalr

open ParseTree

theorem Grammar.Forest.validLookahead {g : Grammar} {symbols rest : List Symbol}
    {trees : List ParseTree} (hf : g.Forest symbols trees) {γ : List Symbol} {c : ItemCore}
    {n : NonterminalId} (hvalid : g.ValidItem γ c)
    (hc : g.after c = .nonterminal n :: (symbols ++ rest)) {t next : TerminalId}
    {input input' : List TerminalId} (hinput : leavesAll trees ++ t :: input = next :: input')
    (ht : g.Expects (γ ++ .nonterminal n :: symbols)
      ⟨c.production, c.dot + (symbols.length + 1)⟩ t)
    {p : ProductionId} {rhs : List Symbol} (hp : g.HasRule p n rhs) :
    g.ValidLookahead γ ⟨p, 0⟩ next := by
  have hderives := hf.derives
  rcases hleaves : leavesAll trees with _ | ⟨t₀, leaves⟩
  · rw [hleaves] at hinput hderives
    cases hinput
    have hafter : g.after ⟨c.production, c.dot + (symbols.length + 1)⟩ = rest := by
      obtain ⟨m, right, hrule, hdrop⟩ := Grammar.hasRule_of_after hc
      rw [hrule.after, ← List.drop_drop, hdrop, List.drop_succ_cons, List.drop_left]
    refine Grammar.Expects.predict ?_ hc hp
    rcases ht with ⟨-, hbegins⟩ | ⟨hlookahead, hvanishes⟩
    · rw [hafter] at hbegins
      exact .inl ⟨hvalid, hbegins.append_left hderives⟩
    · rw [hafter] at hvanishes
      exact .inr ⟨Grammar.ValidLookahead.retreat_append hlookahead, .append hderives hvanishes⟩
  · rw [hleaves] at hinput hderives
    cases hinput
    exact .begins hvalid hc hp (Grammar.Begins.append_right ⟨_, hderives⟩ rest)

theorem Grammar.Expects.advance {g : Grammar} {γ symbols : List Symbol} {symbol : Symbol}
    {c : ItemCore} {t : TerminalId}
    (h : g.Expects (γ ++ symbol :: symbols) ⟨c.production, c.dot + (symbols.length + 1)⟩ t) :
    g.Expects (γ ++ [symbol] ++ symbols)
      ⟨c.advance.production, c.advance.dot + symbols.length⟩ t := by
  rw [List.append_assoc]
  have hdot : c.advance.dot + symbols.length = c.dot + (symbols.length + 1) := by
    simp only [ItemCore.advance]
    omega
  rw [hdot]
  exact h

namespace Parser

variable {g : Grammar} {a : Automaton} {tables : PackedTables} {config : Config}
  {dense : Tables}

theorem action_shift (hm : tables.MadeFrom g a config dense) (hshift : dense.counts.shiftReduce = 0)
    {r s : StateId} {q : State} (hq : a.states[r.index]? = some q) {t : TerminalId}
    (hs : q.transition? (.terminal t) = some s) : tables.action r t = .ok (.shift s) := by
  obtain ⟨row, gotos, hrow, htab⟩ := hm.rows hq
  exact (hm.action_shift hrow).mpr (htab.shift_of_settled hshift
    ((State.transition?_eq_some (hm.exact.nodup hq)).mp hs))

theorem action_reduce (hm : tables.MadeFrom g a config dense)
    (hshift : dense.counts.shiftReduce = 0) (hreduce : dense.counts.reduceReduce = 0)
    {r : StateId} {q : State} (hq : a.states[r.index]? = some q) {γ : List Symbol}
    (hγ : q.Holds g γ) {c : ItemCore} {t : TerminalId} (hvalid : g.ValidLookahead γ c t)
    (hafter : g.after c = []) :
    tables.action r t = .ok (.reduce c.production) := by
  obtain ⟨row, gotos, hrow, htab⟩ := hm.rows hq
  obtain ⟨item, hitem, rfl, ht⟩ := hm.exact.exists_item hq hγ hvalid
  exact hm.action_of_reduce hrow (htab.reduce_of_settled hshift hreduce hitem hafter ht)

theorem step_shift (hm : tables.MadeFrom g a config dense) (hshift : dense.counts.shiftReduce = 0)
    {γ rest : List Symbol} {stack : List Frame} (hstack : Stacked a γ stack) {c : ItemCore}
    (hvalid : g.ValidItem γ c) {t : TerminalId} (hc : g.after c = .terminal t :: rest)
    (input : List TerminalId) :
    ∃ s, step g tables ⟨stack, t :: input⟩ = .next (.shift s) ⟨⟨s, .token t⟩ :: stack, input⟩ ∧
      Stacked a (γ ++ [.terminal t]) (⟨s, .token t⟩ :: stack) := by
  have ha := hm.exact.toCharted
  obtain ⟨q, hq, hholds⟩ := hstack.exists_state ha hm.startState
  obtain ⟨s, hs⟩ := exists_transition ha hq hholds hvalid hc
  refine ⟨s, ?_, hstack.push_transition hm.startState hq hs _⟩
  unfold step
  simp only [action_shift hm hshift hq hs]

theorem step_reduce (hg : g.WellFormed) (hm : tables.MadeFrom g a config dense)
    (hshift : dense.counts.shiftReduce = 0) (hreduce : dense.counts.reduceReduce = 0)
    {γ rhs : List Symbol} {stack : List Frame} (hstack : Stacked a (γ ++ rhs) stack)
    {p : ProductionId} {n : NonterminalId} (rule : g.HasRule p n rhs) (hp : p ≠ .start)
    {t : TerminalId} (hdone : g.ValidLookahead (γ ++ rhs) ⟨p, rhs.length⟩ t)
    {lower children : List ParseTree} (htrees : trees stack = lower ++ children)
    (hlength : lower.length = γ.length) (input : List TerminalId) :
    ∃ s stack', step g tables ⟨stack, t :: input⟩ =
        .next (.reduce p) ⟨⟨s, .node p children⟩ :: stack', t :: input⟩ ∧
      trees stack' = lower ∧
      Stacked a (γ ++ [.nonterminal n]) (⟨s, .node p children⟩ :: stack') := by
  have ha := hm.exact.toCharted
  have hafter : g.after ⟨p, rhs.length⟩ = [] := by
    rw [rule.after, List.drop_length]
  obtain ⟨q, hq, hholds⟩ := hstack.exists_state ha hm.startState
  have haction := action_reduce hm hshift hreduce hq hholds hdone hafter
  obtain ⟨n', rhs', front, s, hrule, -, hfront, -, hreduces, hstacked⟩ :=
    reduce_next (c := ⟨stack, t :: input⟩) hg ha hm.toDrives hstack hdone.validItem hafter hp
  obtain ⟨rfl, rfl⟩ := rule.unique hrule
  obtain rfl := List.append_cancel_right hfront
  obtain ⟨hlower, hchildren⟩ : trees (stack.drop rhs.length) = lower ∧
      (stack.take rhs.length).reverse.map (·.tree) = children := by
    rw [trees_split stack rhs.length] at htrees
    apply List.append_inj htrees
    rw [hlength, trees, List.length_map, List.length_reverse, hstack.drop.length_eq]
  rw [hchildren] at hreduces
  refine ⟨s, stack.drop rhs.length, ?_, hlower, hstacked _⟩
  unfold step
  simp only [haction, hm.startProduction, if_neg hp]
  exact hreduces

/-- The run along a forest.  The induction is on the forest; `c` is an item that expects its
symbols, and lets `t` come next behind them. -/
theorem reaches_forest (hg : g.WellFormed) (hstart : ¬ g.MentionsStart)
    (hm : tables.MadeFrom g a config dense) (hshift : dense.counts.shiftReduce = 0)
    (hreduce : dense.counts.reduceReduce = 0) {symbols : List Symbol} {forest : List ParseTree}
    (hf : g.Forest symbols forest) {γ rest : List Symbol} {c : ItemCore} {stack : List Frame}
    (t : TerminalId) (input : List TerminalId) (hstack : Stacked a γ stack)
    (hvalid : g.ValidItem γ c) (hc : g.after c = symbols ++ rest)
    (ht : g.Expects (γ ++ symbols) ⟨c.production, c.dot + symbols.length⟩ t) :
    ∃ events stack', Reaches g tables ⟨stack, leavesAll forest ++ t :: input⟩ events
        ⟨stack', t :: input⟩ ∧
      Stacked a (γ ++ symbols) stack' ∧ trees stack' = trees stack ++ forest ∧
      reductions events = reductionsAll forest := by
  induction hf generalizing γ rest c stack t input with
  | nil => exact ⟨[], stack, .refl _, by simpa using hstack, by simp, rfl⟩
  | @token t₀ symbols forest _ ih =>
      obtain ⟨s, hstep, hstacked⟩ :=
        step_shift hm hshift hstack hvalid hc (leavesAll forest ++ t :: input)
      obtain ⟨events, stack', hreaches, hstacked', htrees, hreductions⟩ :=
        ih t input hstacked (.advance hvalid hc) (Grammar.after_advance hc) ht.advance
      refine ⟨.shift s :: events, stack', .step hstep hreaches, ?_, ?_, ?_⟩
      · simpa using hstacked'
      · rw [htrees, trees_cons, List.append_assoc]
        rfl
      · exact hreductions
  | @node p n rhs symbols children forest rule _ below ihChildren ihRest =>
      obtain ⟨next, input', hinput⟩ : ∃ next input', leavesAll forest ++ t :: input =
          next :: input' := List.exists_cons_of_ne_nil (by simp)
      have hdone : g.ValidLookahead (γ ++ rhs) ⟨p, rhs.length⟩ next := by
        have hlookahead := below.validLookahead hvalid hc hinput ht rule
        have hfront := hlookahead.advance_front rule (Nat.le_refl rhs.length)
        rwa [List.take_length] at hfront
      have hbegin : g.after ⟨p, 0⟩ = rhs ++ [] := by
        simpa using rule.after 0
      have hend : g.Expects (γ ++ rhs) ⟨p, 0 + rhs.length⟩ next := by
        rw [Nat.zero_add]
        refine .inr ⟨hdone, ?_⟩
        rw [rule.after, List.drop_length]
        exact .refl []
      -- First the children, then the reduction, which puts `n` in their place, then the rest.
      obtain ⟨events₁, stack₁, hreaches₁, hstacked₁, htrees₁, hreductions₁⟩ :=
        ihChildren next input' hstack (.predict hvalid hc rule) hbegin hend
      have hlower : (trees stack).length = γ.length := by
        rw [trees, List.length_map, List.length_reverse, hstack.length_eq]
      obtain ⟨s, stack₂, hstep, htrees₂, hstacked₂⟩ :=
        step_reduce hg hm hshift hreduce hstacked₁ rule
          (Grammar.ne_start_of_predicted hg hstart hc rule) hdone htrees₁ hlower input'
      obtain ⟨events₃, stack₃, hreaches₃, hstacked₃, htrees₃, hreductions₃⟩ :=
        ihRest t input hstacked₂ (.advance hvalid hc) (Grammar.after_advance hc) ht.advance
      rw [hinput] at hreaches₃
      refine ⟨events₁ ++ .reduce p :: events₃, stack₃, ?_, ?_, ?_, ?_⟩
      · simp only [leavesAll, leaves, List.append_assoc, hinput]
        exact hreaches₁.trans (.step hstep hreaches₃)
      · simpa using hstacked₃
      · rw [htrees₃, trees_cons, htrees₂, List.append_assoc]
        rfl
      · rw [reductions, List.filterMap_append, ← reductions, hreductions₁, List.filterMap_cons]
        simp only
        rw [← reductions, hreductions₃]
        simp [reductionsAll, ParseTree.reductions]

theorem accepts_leaves (hg : g.WellFormed) (hstart : ¬ g.MentionsStart)
    (hm : tables.MadeFrom g a config dense) (hshift : dense.counts.shiftReduce = 0)
    (hreduce : dense.counts.reduceReduce = 0) {tree : ParseTree}
    (htree : g.IsTree (.nonterminal g.start) tree) :
    ∃ trace, Accepts g tables tree.leaves tree trace ∧ reductions trace = tree.reductions := by
  have hinitial : g.after ⟨.start, 0⟩ = [.nonterminal g.start] := hg.start_rule.after 0
  have hafter : g.after ⟨.start, 1⟩ = [] := hg.start_rule.after 1
  have hdone : g.ValidLookahead [.nonterminal g.start] ⟨.start, 1⟩ .eof :=
    .advance .start hinitial
  have hvanishes : g.Vanishes (g.after ⟨.start, 1⟩) := by
    rw [hafter]
    exact .refl []
  obtain ⟨events, stack, hreaches, hstacked, htrees, hreductions⟩ :=
    reaches_forest hg hstart hm hshift hreduce htree .eof [] .nil .start hinitial
      (.inr ⟨hdone, hvanishes⟩)
  obtain ⟨frame, rfl⟩ : ∃ frame, stack = [frame] :=
    List.length_eq_one_iff.mp hstacked.length_eq
  obtain rfl : frame.tree = tree := by
    simpa [trees] using htrees
  obtain ⟨q, hq, hholds⟩ := hstacked.exists_state hm.exact.toCharted hm.startState
  have haccept : Parser.step g tables ⟨[frame], [.eof]⟩ = .accepted frame.tree := by
    unfold Parser.step
    simp only [action_reduce hm hshift hreduce hq hholds hdone hafter, hm.startProduction, if_true]
  simp only [leavesAll, reductionsAll, List.append_nil] at hreaches hreductions
  refine ⟨events ++ [.accept], accepts_iff.mpr ⟨events, _, hreaches, haccept, rfl⟩, ?_⟩
  rw [← hreductions]
  simp [reductions]

/-- Without conflicts the parser accepts all that the start symbol derives, and reduces by the
productions of the derivation; so there is only one. -/
theorem accepts_of_isTree {declarations : List Declaration} {g : Grammar}
    (hg : Grammar.define declarations = .ok g) (hstart : ¬ g.MentionsStart) {config : Config}
    {sink reports : Diagnostics} {generated : Generated}
    (h : config.generate g sink = ⟨.ok generated, reports⟩)
    (hshift : generated.summary.counts.shiftReduce = 0)
    (hreduce : generated.summary.counts.reduceReduce = 0) :
    ∃ tables, generated.pack = .ok tables ∧
      (∀ tree, g.IsTree (.nonterminal g.start) tree →
        (∃ trace, Accepts g tables tree.leaves tree trace ∧ reductions trace = tree.reductions) ∧
        g.Rightmost tree.reductions.reverse [.nonterminal g.start] (tree.leaves.map .terminal)) ∧
      ∀ tree tree', g.IsTree (.nonterminal g.start) tree → g.IsTree (.nonterminal g.start) tree' →
        tree.leaves = tree'.leaves → tree = tree' := by
  have hwell := Grammar.wellFormed_of_define hg
  obtain ⟨tables, dense, hpack, hm, hcounts⟩ := Config.exists_pack hwell h
  rw [← hcounts] at hshift hreduce
  refine ⟨tables, hpack, fun tree htree => ⟨?_, ?_⟩, fun tree tree' htree htree' hleaves => ?_⟩
  · exact accepts_leaves hwell hstart hm hshift hreduce htree
  · simpa [leavesAll, reductionsAll] using Grammar.Forest.rightmost htree
  · obtain ⟨trace, haccepts, -⟩ := accepts_leaves hwell hstart hm hshift hreduce htree
    obtain ⟨trace', haccepts', -⟩ := accepts_leaves hwell hstart hm hshift hreduce htree'
    rw [hleaves] at haccepts
    exact (haccepts.unique haccepts').1

theorem accepts_of_isTree_optionalTail :
    ∃ g tables tree trace, ∃ generated : Generated,
      Grammar.define Automaton.optionalTail = .ok g ∧ generated.pack = .ok tables ∧
      g.IsTree (.nonterminal g.start) tree ∧ tree.leaves.length = 2 ∧
      Accepts g tables tree.leaves tree trace ∧ reductions trace = tree.reductions := by
  let x : TerminalId := .nth 2
  let y : TerminalId := .nth 3
  have hrun : (Config.tablesOf {} Automaton.optionalTail).any (fun (g, generated, tables) =>
      (g.productions.all fun p => !p.symbols.contains (.nonterminal .start)) &&
        generated.summary.counts.shiftReduce == 0 && generated.summary.counts.reduceReduce == 0 &&
        (run g tables 20 (start [x, y]) []).1.failure? == none) = true := by
    decide +kernel
  obtain ⟨⟨g, generated, tables⟩, htables, hchecks⟩ := (Option.any_eq_true _ _).mp hrun
  simp only [Bool.and_eq_true, beq_iff_eq] at hchecks
  obtain ⟨⟨⟨hchecked, hshift⟩, hreduce⟩, haccepts⟩ := hchecks
  obtain ⟨hg, ⟨reports, hgenerate⟩, hpack⟩ := Config.tablesOf_eq_some htables
  obtain ⟨tree, trace, haccepts⟩ := exists_accepts_of_run _ haccepts
  have hstart := not_mentionsStart hchecked
  obtain ⟨tables', hpack', htrees, -⟩ := accepts_of_isTree hg hstart hgenerate hshift hreduce
  obtain ⟨made, dense, hpackMade, hmade, -⟩ :=
    Config.exists_pack (Grammar.wellFormed_of_define hg) hgenerate
  rw [hpack, Except.ok.injEq] at hpack' hpackMade
  subst hpack' hpackMade
  obtain ⟨htree, hleaves, -⟩ := tree_of_accepts (Grammar.wellFormed_of_define hg) hstart hmade rfl
    (by decide) haccepts
  obtain ⟨⟨trace', haccepts', hreductions⟩, -⟩ := htrees tree htree
  exact ⟨g, tables, tree, trace', generated, hg, hpack, htree, by rw [hleaves]; rfl, haccepts',
    hreductions⟩

end Parser

end Lalr
