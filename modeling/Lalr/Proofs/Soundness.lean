import Lalr.Proofs.DefinedGrammar
import Lalr.Proofs.Runs

namespace Lalr

open ParseTree

namespace ParseTree

theorem reductionsAll_append (trees trees' : List ParseTree) :
    reductionsAll (trees ++ trees') = reductionsAll trees ++ reductionsAll trees' := by
  induction trees with
  | nil => rfl
  | cons tree trees ih => simp only [List.cons_append, reductionsAll, ih, List.append_assoc]

end ParseTree

namespace Grammar

/-- Some right side contains the start nonterminal that every grammar adds. -/
def MentionsStart (g : Grammar) : Prop :=
  ∃ p n rhs, g.HasRule p n rhs ∧ .nonterminal .start ∈ rhs

variable {g : Grammar}

theorem Forest.split {u v : List Symbol} {trees trees' : List ParseTree}
    (h : g.Forest (u ++ v) (trees ++ trees')) (hlength : u.length = trees.length) :
    g.Forest u trees ∧ g.Forest v trees' := by
  induction u generalizing trees with
  | nil =>
      obtain rfl := List.eq_nil_of_length_eq_zero hlength.symm
      exact ⟨.nil, h⟩
  | cons symbol u ih =>
      obtain ⟨tree, trees, rfl⟩ := List.exists_cons_of_length_eq_add_one hlength.symm
      have hlength' := Nat.succ.inj hlength
      rw [List.cons_append, List.cons_append] at h
      cases h with
      | token rest =>
          obtain ⟨hu, hv⟩ := ih rest hlength'
          exact ⟨.token hu, hv⟩
      | node rule below rest =>
          obtain ⟨hu, hv⟩ := ih rest hlength'
          exact ⟨.node rule below hu, hv⟩

theorem ne_start_of_predicted (hg : g.WellFormed) (hstart : ¬ g.MentionsStart) {c : ItemCore}
    {n : NonterminalId} {p : ProductionId} {rest rhs : List Symbol}
    (hc : g.after c = .nonterminal n :: rest) (hrule : g.HasRule p n rhs) : p ≠ .start := by
  rintro rfl
  obtain ⟨rfl, -⟩ := hg.start_rule.unique hrule
  obtain ⟨m, rhs', hrule, hdrop⟩ := hasRule_of_after hc
  refine hstart ⟨_, m, rhs', hrule, List.mem_of_mem_drop (i := c.dot) ?_⟩
  rw [hdrop]
  exact List.mem_cons_self

theorem ValidItem.eq_nil_of_start (hg : g.WellFormed) (hstart : ¬ g.MentionsStart)
    {γ : List Symbol} (h : g.ValidItem γ ⟨.start, 0⟩) : γ = [] := by
  generalize hc : (⟨.start, 0⟩ : ItemCore) = c at h
  cases h with
  | start => rfl
  | predict h hafter hp =>
      cases hc
      exact absurd rfl (ne_start_of_predicted hg hstart hafter hp)
  | advance => exact absurd (congrArg ItemCore.dot hc).symm (Nat.succ_ne_zero _)

theorem ValidItem.eq_start (hg : g.WellFormed) (hstart : ¬ g.MentionsStart) {γ : List Symbol}
    {c : ItemCore} (h : g.ValidItem γ c) (hp : c.production = .start) (hafter : g.after c = []) :
    γ = [.nonterminal g.start] := by
  obtain ⟨n, rhs, front, hrule, hle, rfl, hfront⟩ := h.split hg
  rw [hp] at hrule hfront
  obtain ⟨rfl, rfl⟩ := hg.start_rule.unique hrule
  rw [hfront.eq_nil_of_start hg hstart, List.nil_append]
  have hdrop := hg.start_rule.after c.dot
  rw [← hp] at hdrop
  exact List.take_of_length_le (List.drop_eq_nil_iff.mp (hdrop.symm.trans hafter))

theorem ValidLookahead.eq_eof (hg : g.WellFormed) (hstart : ¬ g.MentionsStart) {γ : List Symbol}
    {c : ItemCore} {t : TerminalId} (h : g.ValidLookahead γ c t) (hp : c.production = .start) :
    t = .eof := by
  induction h with
  | start => rfl
  | begins _ hafter hrule _ => exact absurd hp (ne_start_of_predicted hg hstart hafter hrule)
  | passes _ hafter hrule _ _ => exact absurd hp (ne_start_of_predicted hg hstart hafter hrule)
  | advance _ _ ih => exact ih hp

end Grammar

namespace Parser

variable {g : Grammar} {a : Automaton} {tables : PackedTables}

def trees (stack : List Frame) : List ParseTree :=
  stack.reverse.map (·.tree)

/-- What has been parsed: `γ` is on the stack, and what it stands for has been consumed of the
tokens `whole`. -/
structure Parsed (g : Grammar) (a : Automaton) (whole : List TerminalId) (trace : List Event)
    (γ : List Symbol) (c : Configuration) : Prop where
  stacked : Stacked a γ c.stack
  forest : g.Forest γ (trees c.stack)
  leaves : leavesAll (trees c.stack) ++ c.input = whole
  reductions : reductionsAll (trees c.stack) = Parser.reductions trace

theorem trees_cons (frame : Frame) (stack : List Frame) :
    trees (frame :: stack) = trees stack ++ [frame.tree] := by
  simp [trees]

theorem trees_split (stack : List Frame) (k : Nat) :
    trees stack = trees (stack.drop k) ++ (stack.take k).reverse.map (·.tree) := by
  unfold trees
  rw [← List.map_append, ← List.reverse_append, List.take_append_drop]

theorem Parsed.step (hg : g.WellFormed) (ha : a.Charted g) (hd : tables.Drives g a)
    {whole : List TerminalId} {trace : List Event} {γ : List Symbol} {c d : Configuration}
    (h : Parsed g a whole trace γ c) {event : Event}
    (hstep : Parser.step g tables c = .next event d) :
    ∃ γ', Parsed g a whole (trace ++ [event]) γ' d := by
  rcases step_next hg ha hd h.stacked hstep with
    ⟨t, rest, s, hinput, -, rfl, rfl, hstacked⟩ |
    ⟨t, rest, item, n, rhs, front, s, -, -, -, -, -, hrule, -, rfl, -, rfl, rfl, hstacked⟩
  · refine ⟨_, hstacked, ?_, ?_, ?_⟩
    · rw [trees_cons]
      exact h.forest.append (.token .nil)
    · rw [trees_cons, leavesAll_append, ← h.leaves, hinput]
      simp [leavesAll, ParseTree.leaves]
    · rw [trees_cons, reductionsAll_append, h.reductions]
      simp [Parser.reductions, reductionsAll, ParseTree.reductions]
  · have hsplit := trees_split c.stack rhs.length
    have hforest := h.forest
    rw [hsplit] at hforest
    have hbelow := h.stacked.drop
    obtain ⟨hfront, hchildren⟩ := hforest.split (by simp [trees, ← hbelow.length_eq])
    refine ⟨_, hstacked, ?_, ?_, ?_⟩
    · rw [trees_cons]
      exact hfront.append (.node hrule hchildren .nil)
    · rw [trees_cons, leavesAll_append, ← h.leaves, hsplit, leavesAll_append]
      simp [leavesAll, ParseTree.leaves]
    · rw [trees_cons, reductionsAll_append, Parser.reductions, List.filterMap_append,
        ← Parser.reductions, ← h.reductions, hsplit, reductionsAll_append]
      simp [reductionsAll, ParseTree.reductions]

theorem Parsed.reaches (hg : g.WellFormed) (ha : a.Charted g) (hd : tables.Drives g a)
    {whole : List TerminalId} {trace events : List Event} {γ : List Symbol} {c d : Configuration}
    (h : Parsed g a whole trace γ c) (hreaches : Reaches g tables c events d) :
    ∃ γ', Parsed g a whole (trace ++ events) γ' d := by
  induction hreaches generalizing trace γ with
  | refl c => exact ⟨γ, by rwa [List.append_nil]⟩
  | step hstep _ ih =>
      obtain ⟨γ', h'⟩ := h.step hg ha hd hstep
      obtain ⟨γ'', h''⟩ := ih h'
      exact ⟨γ'', by simpa using h''⟩

theorem parsed_start (g : Grammar) (a : Automaton) (tokens : List TerminalId) :
    Parsed g a (tokens ++ [.eof]) [] [] (start tokens) :=
  ⟨.nil, .nil, rfl, rfl⟩

theorem exists_lookahead {config : Config} {dense : Tables}
    (hm : tables.MadeFrom g a config dense) {r : StateId} {q : State}
    (hq : a.states[r.index]? = some q) {row : ActionRow}
    (hrow : dense.actions.rows[r.index]? = some row) {t : TerminalId} {p : ProductionId}
    (h : row.get? t = some (.reduce p)) :
    ∃ c γ, c.production = p ∧ g.after c = [] ∧ c ∈ q.items.cores ∧ q.Holds g γ ∧
      g.ValidLookahead γ c t := by
  obtain ⟨row', gotos, hrow', htab⟩ := hm.rows hq
  obtain rfl : row = row' := Option.some.inj (hrow.symm.trans hrow')
  obtain ⟨item, hitem, hp, hafter, ht⟩ := htab.reduce h
  obtain ⟨slot, hslot⟩ := Array.getElem?_of_mem hitem
  obtain ⟨γ, hγ, hvalid⟩ := (hm.exact.lookahead hq hslot t).mp ht
  exact ⟨item.core, γ, hp, hafter, ItemSet.mem_cores.mpr ⟨slot, item, hslot, rfl⟩, hγ, hvalid⟩

theorem tree_of_accepts (hg : g.WellFormed) (hstart : ¬ g.MentionsStart) {config : Config}
    {dense : Tables} (hm : tables.MadeFrom g a config dense)
    (hplain : config.compact = false) {tokens : List TerminalId} (heof : .eof ∉ tokens)
    {tree : ParseTree} {trace : List Event} (h : Accepts g tables tokens tree trace) :
    g.IsTree (.nonterminal g.start) tree ∧ tree.leaves = tokens ∧
      tree.reductions = reductions trace := by
  obtain ⟨events, d, hreaches, haccept, rfl⟩ := accepts_iff.mp h
  obtain ⟨γ, hparsed⟩ :=
    (parsed_start g a tokens).reaches hg hm.exact.toCharted hm.toDrives hreaches
  obtain ⟨t, rest, s, below, hinput, hstack, haction⟩ := step_accepted haccept
  obtain ⟨q, hq, hholds⟩ := hparsed.stacked.exists_state hm.exact.toCharted hm.startState
  rw [hm.startProduction] at haction
  obtain ⟨row, -, hrow, -⟩ := hm.rows hq
  obtain ⟨c, γ', hp, hafter, hc, -, hvalid⟩ :=
    exists_lookahead hm hq hrow (hm.reduce_of_action_plain hplain hrow haction)
  obtain rfl := hvalid.eq_eof hg hstart hp
  obtain rfl := ((hholds c).mp hc).eq_start hg hstart hp hafter
  -- Only the frame of the start symbol is on the stack, and only the end of the input is left.
  have hbelow : below = [] := by
    have hlength := hparsed.stacked.length_eq
    rw [hstack] at hlength
    simpa using hlength
  subst hbelow
  have htrees : trees d.stack = [tree] := by
    rw [hstack]
    rfl
  have hleaves := hparsed.leaves
  have hreductions := hparsed.reductions
  have hforest := hparsed.forest
  rw [htrees] at hleaves hreductions hforest
  simp only [leavesAll, reductionsAll, List.append_nil, List.nil_append] at hleaves hreductions
  refine ⟨hforest, ?_, ?_⟩
  · rw [hinput] at hleaves
    rcases List.eq_nil_or_concat rest with rfl | ⟨rest', last, rfl⟩
    · exact List.append_cancel_right hleaves
    · have happend : (tree.leaves ++ .eof :: rest') ++ [last] = tokens ++ [.eof] := by
        simpa using hleaves
      obtain ⟨rfl, -⟩ := List.append_inj' happend rfl
      simp at heof
  · rw [hreductions]
    simp [reductions]

/-- Whatever the parser accepts is derived from the start symbol, and its reductions, read
backwards, are the steps of a rightmost derivation. -/
theorem derives_of_accepts {declarations : List Declaration} {g : Grammar}
    (hg : Grammar.define declarations = .ok g) (hstart : ¬ g.MentionsStart) {config : Config}
    (hplain : config.compact = false) {sink reports : Diagnostics} {generated : Generated}
    (h : config.generate g sink = ⟨.ok generated, reports⟩) :
    ∃ tables, generated.pack = .ok tables ∧
      ∀ tokens tree trace, TerminalId.eof ∉ tokens → Accepts g tables tokens tree trace →
        g.Derives [.nonterminal g.start] (tokens.map .terminal) ∧
        g.Rightmost (reductions trace).reverse [.nonterminal g.start] (tokens.map .terminal) := by
  have hwell := Grammar.wellFormed_of_define hg
  obtain ⟨tables, dense, hpack, hmade, -⟩ := Config.exists_pack hwell h
  refine ⟨tables, hpack, fun tokens tree trace heof haccepts => ?_⟩
  obtain ⟨htree, hleaves, hreductions⟩ := tree_of_accepts hwell hstart hmade hplain heof haccepts
  have hrightmost := Grammar.Forest.rightmost htree
  simp only [reductionsAll, leavesAll, List.append_nil, hleaves, hreductions] at hrightmost
  exact ⟨hrightmost.derives, hrightmost⟩

theorem not_mentionsStart {g : Grammar}
    (h : (g.productions.all fun p => !p.symbols.contains (.nonterminal .start)) = true) :
    ¬ g.MentionsStart := by
  rintro ⟨p, n, rhs, ⟨production, hp, rfl, rfl⟩, hmem⟩
  have hall := Array.all_eq_true_iff_forall_mem.mp h production (Array.mem_of_getElem? hp)
  simp [hmem] at hall

/-- The grammar of `E ::= E "+" E` and `E ::= x`, where `"+"` associates to the left. -/
def sums : List Declaration :=
  [.terminal "x" none, .terminal "+" (some ⟨1, .left⟩), .nonterminal "E",
    .rule (.nth 1) [.nonterminal 1, .terminal 3, .nonterminal 1] none,
    .rule (.nth 1) [.terminal 2] none]

theorem derives_of_accepts_sums :
    ∃ g tables tree trace, ∃ generated : Generated, ∃ tokens, Grammar.define sums = .ok g ∧
      generated.pack = .ok tables ∧ tokens.length = 5 ∧ Accepts g tables tokens tree trace ∧
      g.Rightmost (reductions trace).reverse [.nonterminal g.start] (tokens.map .terminal) := by
  let x : TerminalId := .nth 2
  let plus : TerminalId := .nth 3
  have hrun : (Config.tablesOf {} sums).any (fun (g, _, tables) =>
      (g.productions.all fun p => !p.symbols.contains (.nonterminal .start)) &&
        (run g tables 20 (start [x, plus, x, plus, x]) []).1.failure? == none) = true := by
    decide +kernel
  obtain ⟨⟨g, generated, tables⟩, htables, hchecks⟩ := (Option.any_eq_true _ _).mp hrun
  simp only [Bool.and_eq_true, beq_iff_eq] at hchecks
  obtain ⟨hstart, haccepts⟩ := hchecks
  obtain ⟨hg, ⟨reports, hgenerate⟩, hpack⟩ := Config.tablesOf_eq_some htables
  obtain ⟨tree, trace, haccepts⟩ := exists_accepts_of_run _ haccepts
  obtain ⟨tables', hpack', hall⟩ := derives_of_accepts hg (not_mentionsStart hstart) rfl hgenerate
  rw [hpack, Except.ok.injEq] at hpack'
  subst hpack'
  exact ⟨g, tables, tree, trace, generated, _, hg, hpack, rfl, haccepts,
    (hall _ tree trace (by decide) haccepts).2⟩

end Parser

end Lalr
