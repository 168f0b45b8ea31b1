import Lalr.Proofs.Soundness

/-!
Compacted tables.  Where the plain parser goes on, the compacted one does the same.  Where the plain
one stops with a syntax error, the compacted one may go on reducing, but it never shifts again: a
shift would need an item that lets the terminal come next, and then the terminal would have been in
the lookahead of the first of these reductions.  It can still accept.
-/

namespace Lalr.Parser

variable {g : Grammar} {a : Automaton} {plain compacted : PackedTables} {γ : List Symbol}
  {stack : List Frame}

/-- The compacted parser accepts a list of tokens although the plain one stops with a syntax error:
from there reductions alone lead to acceptance. -/
def AcceptsEarly (g : Grammar) (plain compacted : PackedTables) (tokens : List TerminalId) : Prop :=
  ∃ before c t after d tree, Reaches g plain (start tokens) before c ∧
    step g plain c = .failed none (.syntaxError t (top plain c.stack)) ∧
    Reaches g compacted c after d ∧ (∀ event ∈ after, ∃ p, event = .reduce p) ∧
    step g compacted d = .accepted tree

section Drives

theorem top_congr (hp : plain.Drives g a) (hc : compacted.Drives g a) (stack : List Frame) :
    top plain stack = top compacted stack := by
  cases stack with
  | nil => exact hp.startState.trans hc.startState.symm
  | cons frame _ => rfl

theorem reduce_congr (ha : a.Charted g) (hp : plain.Drives g a) (hc : compacted.Drives g a)
    {c : Configuration} (h : Stacked a γ c.stack) (p : ProductionId) :
    reduce g plain c p = reduce g compacted c p := by
  unfold reduce
  split
  · rfl
  · rename_i production _
    split
    · rfl
    · have hle : production.length ≤ γ.length := by
        rw [← h.length_eq]
        omega
      have hbelow : Stacked a (γ.take (γ.length - production.length))
          (c.stack.drop production.length) := by
        have hwhole := h
        rw [← List.take_append_drop (γ.length - production.length) γ] at hwhole
        have hdrop := hwhole.drop
        rwa [List.length_drop, Nat.sub_sub_self hle] at hdrop
      obtain ⟨q, hq, -⟩ := hbelow.exists_state ha hp.startState
      simp only [← top_congr hp hc, hp.goto hq, hc.goto hq]

theorem step_congr (ha : a.Charted g) (hp : plain.Drives g a) (hc : compacted.Drives g a)
    {c : Configuration} (h : Stacked a γ c.stack)
    (haction : ∀ t rest, c.input = t :: rest →
      plain.action (top plain c.stack) t = compacted.action (top plain c.stack) t) :
    step g plain c = step g compacted c := by
  unfold step
  split
  · rfl
  · rename_i t rest hinput
    simp only [← top_congr hp hc, haction t rest hinput, hp.startProduction, hc.startProduction,
      reduce_congr ha hp hc h]

/-- As long as the compacted parser only reduces, nothing changes about the terminals that may come
next: what may come after the last reduction may come before the first. -/
theorem reaches_awaits (hg : g.WellFormed) (ha : a.Charted g) (hd : compacted.Drives g a)
    {c d : Configuration} {events : List Event} (hreaches : Reaches g compacted c events d)
    (h : Stacked a γ c.stack) {t : TerminalId} {rest : List TerminalId}
    (hinput : c.input = t :: rest) :
    g.Awaits γ t ∨ (∀ event ∈ events, ∃ p, event = .reduce p) ∧ d.input = t :: rest ∧
      ∃ γ', Stacked a γ' d.stack ∧ (g.Awaits γ' t → g.Awaits γ t) := by
  induction hreaches generalizing γ with
  | refl c => exact .inr ⟨by simp, hinput, γ, h, fun hawaits => hawaits⟩
  | @step c d e event events hstep _ ih =>
      rcases step_next hg ha hd h hstep with
        ⟨t', rest', s, hinput', haction, -, -, -⟩ |
        ⟨t', rest', item, n, rhs, front, s, -, -, -, -, -, hrule, -, rfl, -, rfl, rfl, hstacked⟩
      · rw [hinput'] at hinput
        cases hinput
        obtain ⟨q, hq, hholds⟩ := h.exists_state ha hd.startState
        obtain ⟨core, hcore, rest'', hexpects⟩ := (ha.expected hq (.terminal t)).mp
          (List.mem_map_of_mem (f := (·.1)) (hd.shift hq haction))
        refine .inl ⟨core, .inl ⟨(hholds core).mp hcore, ?_⟩⟩
        rw [hexpects]
        exact .terminal t rest''
      · rcases ih hstacked hinput with hawaits | ⟨hevents, hinput', γ', hγ', hlast⟩
        · exact .inl (hawaits.of_reduced hrule)
        · exact .inr ⟨List.forall_mem_cons.mpr ⟨⟨_, rfl⟩, hevents⟩, hinput', γ', hγ',
            fun hawaits => (hlast hawaits).of_reduced hrule⟩

end Drives

section MadeFrom

variable {dense : Tables} {config config' : Config}

theorem action_congr (hp : plain.MadeFrom g a config dense) (hplain : config.compact = false)
    (hc : compacted.MadeFrom g a config' dense) {r : StateId} {q : State}
    (hq : a.states[r.index]? = some q) (t : TerminalId) :
    plain.action r t = compacted.action r t ∨ plain.action r t = .ok .error := by
  obtain ⟨row, gotos, hrow, htab⟩ := hp.rows hq
  rcases haction : plain.action r t with e | _ | s | p
  · rw [hp.action hrow] at haction
    cases haction
  · exact .inr rfl
  · exact .inl ((hc.action_shift hrow).mpr ((hp.action_shift hrow).mp haction)).symm
  · exact .inl (hc.action_of_reduce hrow (hp.reduce_of_action_plain hplain hrow haction)).symm

theorem not_validLookahead (hp : plain.MadeFrom g a config dense)
    (hc : compacted.MadeFrom g a config' dense) {r : StateId} {q : State}
    (hq : a.states[r.index]? = some q) (hγ : q.Holds g γ) {t : TerminalId} {p : ProductionId}
    (herror : plain.action r t = .ok .error) (hreduce : compacted.action r t = .ok (.reduce p))
    {c : ItemCore} (hafter : g.after c = []) : ¬ g.ValidLookahead γ c t := by
  intro hvalid
  obtain ⟨row, gotos, hrow, htab⟩ := hp.rows hq
  obtain ⟨item, hitem, rfl, ht⟩ := hp.exact.exists_item hq hγ hvalid
  obtain ⟨action, hcell, hne⟩ := htab.taken hitem hafter ht
  rcases hc.reduce_of_action hrow hreduce with hcell' | ⟨-, hfree⟩
  · rw [hp.action_of_reduce hrow hcell'] at herror
    cases herror
  · exact hne (hfree action hcell)

theorem step_cases (hp : plain.MadeFrom g a config dense) (hplain : config.compact = false)
    (hc : compacted.MadeFrom g a config' dense) {c : Configuration} (h : Stacked a γ c.stack) :
    step g plain c = step g compacted c ∨
      ∃ t, step g plain c = .failed none (.syntaxError t (top plain c.stack)) := by
  have ha := hp.exact.toCharted
  obtain ⟨q, hq, -⟩ := h.exists_state ha hp.startState
  rcases hinput : c.input with _ | ⟨t, rest⟩
  · refine .inl (step_congr ha hp.toDrives hc.toDrives h fun t rest hinput' => ?_)
    rw [hinput] at hinput'
    cases hinput'
  · rcases action_congr hp hplain hc hq t with hsame | herror
    · refine .inl (step_congr ha hp.toDrives hc.toDrives h fun t' rest' hinput' => ?_)
      rw [hinput] at hinput'
      cases hinput'
      exact hsame
    · refine .inr ⟨t, ?_⟩
      unfold step
      simp only [hinput, herror]

theorem reaches_compacted (hg : g.WellFormed) (hp : plain.MadeFrom g a config dense)
    (hplain : config.compact = false) (hc : compacted.MadeFrom g a config' dense)
    {c d : Configuration} {events : List Event} (hreaches : Reaches g plain c events d)
    (h : Stacked a γ c.stack) :
    Reaches g compacted c events d ∧ ∃ γ', Stacked a γ' d.stack := by
  induction hreaches generalizing γ with
  | refl c => exact ⟨.refl c, γ, h⟩
  | step hstep _ ih =>
      obtain ⟨γ', hstacked⟩ := h.of_step hg hp.exact.toCharted hp.toDrives hstep
      obtain ⟨hrest, hlast⟩ := ih hstacked
      rcases step_cases hp hplain hc h with hsame | ⟨t, herror⟩
      · exact ⟨.step (hsame.symm.trans hstep) hrest, hlast⟩
      · rw [herror] at hstep
        cases hstep

theorem Accepts.of_plain (hg : g.WellFormed) (hp : plain.MadeFrom g a config dense)
    (hplain : config.compact = false) (hc : compacted.MadeFrom g a config' dense)
    {tokens : List TerminalId} {tree : ParseTree} {trace : List Event}
    (h : Accepts g plain tokens tree trace) : Accepts g compacted tokens tree trace := by
  obtain ⟨events, d, hreaches, haccept, rfl⟩ := accepts_iff.mp h
  obtain ⟨hreaches', γ, hγ⟩ := reaches_compacted hg hp hplain hc hreaches .nil
  rcases step_cases hp hplain hc hγ with hsame | ⟨t, herror⟩
  · exact accepts_iff.mpr ⟨events, d, hreaches', hsame.symm.trans haccept, rfl⟩
  · rw [herror] at haccept
    cases haccept

/-- From a syntax error of the plain parser on, the compacted one only reduces, and the terminal in
question stays unexpected. -/
theorem reaches_after_error (hg : g.WellFormed) (hp : plain.MadeFrom g a config dense)
    (hc : compacted.MadeFrom g a config' dense) {c d : Configuration} (h : Stacked a γ c.stack)
    {t : TerminalId} {r : StateId} (herror : step g plain c = .failed none (.syntaxError t r))
    {events : List Event} (hreaches : Reaches g compacted c events d) :
    (∀ event ∈ events, ∃ p, event = .reduce p) ∧ (∃ rest, d.input = t :: rest) ∧
      (d = c ∨ ∃ γ', Stacked a γ' d.stack ∧ ¬ g.Awaits γ' t) := by
  have ha := hp.exact.toCharted
  obtain ⟨rest, hinput, herror⟩ := step_syntaxError herror
  cases hreaches with
  | refl => exact ⟨by simp, ⟨rest, hinput⟩, .inl rfl⟩
  | @step _ c' _ event events hstep hrest =>
      obtain ⟨q, hq, hholds⟩ := h.exists_state ha hp.startState
      rcases step_next hg ha hc.toDrives h hstep with
        ⟨t', rest', s, hinput', haction, -, -, -⟩ |
        ⟨t', rest', item, n, rhs, front, s, hinput', haction, -, hafter, -, hrule, hdot, rfl, -,
          rfl, rfl, hstacked⟩
      · rw [hinput] at hinput'
        cases hinput'
        obtain ⟨row, gotos, hrow, -⟩ := hp.rows hq
        rw [← top_congr hp.toDrives hc.toDrives, hc.action_shift hrow,
          ← hp.action_shift hrow, herror] at haction
        cases haction
      · rw [hinput] at hinput'
        cases hinput'
        rw [← top_congr hp.toDrives hc.toDrives] at haction
        have hnot : ¬ g.Awaits (front ++ [.nonterminal n]) t := by
          intro hawaits
          apply not_validLookahead hp hc hq hholds herror haction hafter
          have hdone := hawaits.validLookahead hrule
          rwa [← hdot] at hdone
        rcases reaches_awaits hg ha hc.toDrives hrest hstacked hinput with
          hawaits | ⟨hevents, hinput', γ', hγ', hlast⟩
        · exact absurd hawaits hnot
        · exact ⟨List.forall_mem_cons.mpr ⟨⟨_, rfl⟩, hevents⟩, ⟨rest, hinput'⟩,
            .inr ⟨γ', hγ', fun hawaits => hnot (hlast hawaits)⟩⟩

theorem reaches_plain (hg : g.WellFormed) (hp : plain.MadeFrom g a config dense)
    (hplain : config.compact = false) (hc : compacted.MadeFrom g a config' dense)
    {c d : Configuration} {events : List Event} (hreaches : Reaches g compacted c events d)
    (h : Stacked a γ c.stack) :
    Reaches g plain c events d ∧ step g plain d = step g compacted d ∨
      ∃ before e t after γ', events = before ++ after ∧ Reaches g plain c before e ∧
        Stacked a γ' e.stack ∧
        step g plain e = .failed none (.syntaxError t (top plain e.stack)) ∧
        Reaches g compacted e after d := by
  induction hreaches generalizing γ with
  | refl c =>
      rcases step_cases hp hplain hc h with hsame | ⟨t, herror⟩
      · exact .inl ⟨.refl c, hsame⟩
      · exact .inr ⟨[], c, t, [], γ, rfl, .refl c, h, herror, .refl c⟩
  | @step c c' d event events hstep hrest ih =>
      rcases step_cases hp hplain hc h with hsame | ⟨t, herror⟩
      · rw [← hsame] at hstep
        obtain ⟨γ', hstacked⟩ := h.of_step hg hp.exact.toCharted hp.toDrives hstep
        rcases ih hstacked with ⟨hreaches, hlast⟩ |
          ⟨before, e, t, after, γ'', rfl, hbefore, he, herror, hafter⟩
        · exact .inl ⟨.step hstep hreaches, hlast⟩
        · exact .inr ⟨event :: before, e, t, after, γ'', rfl, .step hstep hbefore, he, herror,
            hafter⟩
      · exact .inr ⟨[], c, t, event :: events, γ, rfl, .refl c, h, herror, .step hstep hrest⟩

theorem Accepts.plain_or_acceptsEarly (hg : g.WellFormed) (hp : plain.MadeFrom g a config dense)
    (hplain : config.compact = false) (hc : compacted.MadeFrom g a config' dense)
    {tokens : List TerminalId} {tree : ParseTree} {trace : List Event}
    (h : Accepts g compacted tokens tree trace) :
    Accepts g plain tokens tree trace ∨ AcceptsEarly g plain compacted tokens := by
  obtain ⟨events, d, hreaches, haccept, rfl⟩ := accepts_iff.mp h
  rcases reaches_plain hg hp hplain hc hreaches .nil with ⟨hreaches', hlast⟩ |
    ⟨before, e, t, after, γ, -, hbefore, he, herror, hafter⟩
  · exact .inl (accepts_iff.mpr ⟨events, d, hreaches', hlast.trans haccept, rfl⟩)
  · obtain ⟨hevents, -⟩ := reaches_after_error hg hp hc he herror hafter
    exact .inr ⟨before, e, t, after, d, tree, hbefore, herror, hafter, hevents, haccept⟩

theorem AcceptsEarly.not_accepts {tokens : List TerminalId}
    (h : AcceptsEarly g plain compacted tokens) (tree : ParseTree) (trace : List Event) :
    ¬ Accepts g plain tokens tree trace := by
  obtain ⟨before, c, t, after, d, tree', hbefore, herror, -⟩ := h
  exact not_accepts_of_reaches hbefore herror nofun tree trace

theorem AcceptsEarly.accepts (hg : g.WellFormed) (hp : plain.MadeFrom g a config dense)
    (hplain : config.compact = false) (hc : compacted.MadeFrom g a config' dense)
    {tokens : List TerminalId} (h : AcceptsEarly g plain compacted tokens) :
    ∃ tree trace, Accepts g compacted tokens tree trace := by
  obtain ⟨before, c, t, after, d, tree, hbefore, -, hafter, -, haccept⟩ := h
  obtain ⟨hbefore', -⟩ := reaches_compacted hg hp hplain hc hbefore .nil
  exact ⟨tree, _, accepts_iff.mpr ⟨_, d, hbefore'.trans hafter, haccept, rfl⟩⟩

/-- It takes the start production as a default to accept early: only the end of the input is in its
lookahead, and that can never be a syntax error when the start symbol alone is on the stack. -/
theorem not_acceptsEarly (hg : g.WellFormed) (hstart : ¬ g.MentionsStart)
    (hp : plain.MadeFrom g a config dense) (hplain : config.compact = false)
    (hc : compacted.MadeFrom g a config' dense)
    (hdefault : ∀ row ∈ dense.actions.rows, config'.defaultOf row ≠ some .start)
    (tokens : List TerminalId) : ¬ AcceptsEarly g plain compacted tokens := by
  rintro ⟨before, c, t, after, d, tree, hbefore, herror, hafter, -, haccept⟩
  have ha := hp.exact.toCharted
  obtain ⟨hbefore', γ, hγ⟩ := reaches_compacted hg hp hplain hc hbefore .nil
  obtain ⟨-, ⟨rest, hinput⟩, hlast⟩ := reaches_after_error hg hp hc hγ herror hafter
  obtain ⟨t', rest', s, below, hinput', -, haction⟩ := step_accepted haccept
  rw [hinput] at hinput'
  cases hinput'
  rw [hc.startProduction, ← top_congr hp.toDrives hc.toDrives] at haction
  rcases hlast with rfl | ⟨γ', hγ', hnot⟩
  · obtain ⟨q, hq, -⟩ := hγ.exists_state ha hp.startState
    obtain ⟨row, gotos, hrow, -⟩ := hp.rows hq
    obtain ⟨_, -, herror⟩ := step_syntaxError herror
    rcases hc.reduce_of_action hrow haction with hcell | ⟨hstart, -⟩
    · rw [hp.action_of_reduce hrow hcell] at herror
      cases herror
    · exact hdefault row (Array.mem_of_getElem? hrow) hstart
  · obtain ⟨q, hq, hholds⟩ := hγ'.exists_state ha hp.startState
    obtain ⟨row, gotos, hrow, -⟩ := hp.rows hq
    rcases hc.reduce_of_action hrow haction with hcell | ⟨hstart, -⟩
    · obtain ⟨core, γ'', hproduction, hend, hcore, -, hvalid⟩ := exists_lookahead hp hq hrow hcell
      -- The start symbol is all there is on the stack, and the item waits for `t`.
      obtain rfl := ((hholds core).mp hcore).eq_start hg hstart hproduction hend
      obtain rfl := hvalid.validItem.eq_start hg hstart hproduction hend
      refine hnot ⟨core, .inr ⟨hvalid, ?_⟩⟩
      rw [hend]
      exact .refl []
    · exact hdefault row (Array.mem_of_getElem? hrow) hstart

end MadeFrom

/-- Compacting tables changes neither trees nor traces of what is accepted.  More is accepted
exactly where reductions alone lead from a syntax error to acceptance, and this needs a row with the
start production as its default. -/
theorem accepts_compacted {declarations : List Declaration} {g : Grammar}
    (hg : Grammar.define declarations = .ok g) {config : Config} {sink reports : Diagnostics}
    {generated : Generated} (h : config.generate g sink = ⟨.ok generated, reports⟩) :
    ∃ plain compacted : Generated, ∃ plainTables compactedTables,
      (∃ reports', { config with compact := false }.generate g sink = ⟨.ok plain, reports'⟩) ∧
      (∃ reports', { config with compact := true }.generate g sink = ⟨.ok compacted, reports'⟩) ∧
      plain.pack = .ok plainTables ∧ compacted.pack = .ok compactedTables ∧
      (∀ tokens,
        (∀ tree trace, Accepts g plainTables tokens tree trace →
          Accepts g compactedTables tokens tree trace) ∧
        ((∀ tree trace, Accepts g compactedTables tokens tree trace →
          Accepts g plainTables tokens tree trace) ↔
            ¬ AcceptsEarly g plainTables compactedTables tokens)) ∧
      (¬ g.MentionsStart → (∀ row ∈ compacted.actions.rows, row.default ≠ some .start) →
        ∀ tokens tree trace, Accepts g compactedTables tokens tree trace ↔
          Accepts g plainTables tokens tree trace) := by
  have hwell := Grammar.wellFormed_of_define hg
  obtain ⟨dense, hmade⟩ := Config.exists_pack_compact hwell h
  obtain ⟨plain, plainTables, hplain, hpackPlain, hp, -⟩ := hmade false
  obtain ⟨compacted, compactedTables, hcompacted, hpackCompacted, hc, hactions⟩ := hmade true
  refine ⟨plain, compacted, plainTables, compactedTables, hplain, hcompacted, hpackPlain,
    hpackCompacted, fun tokens => ⟨fun tree trace => Accepts.of_plain hwell hp rfl hc, ?_⟩,
    fun hstart hdefault tokens tree trace => ⟨fun haccepts => ?_, Accepts.of_plain hwell hp rfl hc⟩⟩
  · constructor
    · intro hall hearly
      obtain ⟨tree, trace, haccepts⟩ := hearly.accepts hwell hp rfl hc
      exact hearly.not_accepts tree trace (hall tree trace haccepts)
    · intro hnot tree trace haccepts
      exact (haccepts.plain_or_acceptsEarly hwell hp rfl hc).resolve_right hnot
  · apply (haccepts.plain_or_acceptsEarly hwell hp rfl hc).resolve_right
    refine not_acceptsEarly hwell hstart hp rfl hc (fun row hrow => ?_) tokens
    apply hdefault row.compact
    rw [hactions, if_pos rfl]
    exact Array.mem_map_of_mem hrow

/-- The grammar of `S ::= A y`, `S ::= A z`, `S ::= x` and `A ::= S`.  Behind `S` it is more often
right to go on than to stop. -/
def chain : List Declaration :=
  [.terminal "x" none, .terminal "y" none, .terminal "z" none, .nonterminal "S", .nonterminal "A",
    .rule (.nth 1) [.nonterminal 2, .terminal 3] none,
    .rule (.nth 1) [.nonterminal 2, .terminal 4] none,
    .rule (.nth 1) [.terminal 2] none,
    .rule (.nth 2) [.nonterminal 1] none]

theorem accepts_compacted_chain :
    ∃ g plain compacted tree trace, Grammar.define chain = .ok g ∧
      (∃ generated reports, Config.generate {} g ∅ = ⟨.ok generated, reports⟩ ∧
        generated.pack = .ok plain) ∧
      (∃ generated reports, Config.generate { compact := true } g ∅ = ⟨.ok generated, reports⟩ ∧
        generated.pack = .ok compacted) ∧
      Accepts g compacted [.nth 2, .nth 3, .nth 4] tree trace ∧
      ∀ tokens tree trace, Accepts g compacted tokens tree trace ↔
        Accepts g plain tokens tree trace := by
  let x : TerminalId := .nth 2
  let y : TerminalId := .nth 3
  let z : TerminalId := .nth 4
  have hrun : (Config.tablesOf { compact := true } chain).any (fun (g, generated, tables) =>
      (g.productions.all fun p => !p.symbols.contains (.nonterminal .start)) &&
        (generated.actions.rows.all fun row => row.default != some .start) &&
        (run g tables 20 (start [x, y, z]) []).1.failure? == none) = true := by
    decide +kernel
  obtain ⟨⟨g, generated, tables⟩, htables, hchecks⟩ := (Option.any_eq_true _ _).mp hrun
  simp only [Bool.and_eq_true, beq_iff_eq] at hchecks
  obtain ⟨⟨hstart, hdefault⟩, haccepts⟩ := hchecks
  obtain ⟨hg, ⟨reports, hgenerate⟩, hpack⟩ := Config.tablesOf_eq_some htables
  obtain ⟨tree, trace, haccepts⟩ := exists_accepts_of_run _ haccepts
  obtain ⟨plain, compacted, plainTables, compactedTables, ⟨reports', hplain⟩,
    ⟨reports'', hcompacted⟩, hpackPlain, hpackCompacted, -, hsame⟩ := accepts_compacted hg hgenerate
  obtain rfl : generated = compacted := by
    have hboth := hgenerate.symm.trans hcompacted
    cases hboth
    rfl
  obtain rfl : tables = compactedTables := Except.ok.inj (hpack.symm.trans hpackCompacted)
  refine ⟨g, plainTables, tables, tree, trace, hg, ⟨plain, reports', hplain, hpackPlain⟩,
    ⟨generated, reports, hgenerate, hpack⟩, haccepts, ?_⟩
  refine hsame (not_mentionsStart hstart) fun row hrow => ?_
  have hne := Array.all_eq_true_iff_forall_mem.mp hdefault row hrow
  exact bne_iff_ne.mp hne

def single : List Declaration :=
  [.terminal "x" none, .nonterminal "S", .rule (.nth 1) [.terminal 2] none]

/-- After `x` the compacted parser accepts whatever comes next. -/
theorem not_accepts_compacted_single :
    ∃ g plain compacted tree trace, Grammar.define single = .ok g ∧
      (∃ generated reports, Config.generate {} g ∅ = ⟨.ok generated, reports⟩ ∧
        generated.pack = .ok plain) ∧
      (∃ generated reports, Config.generate { compact := true } g ∅ = ⟨.ok generated, reports⟩ ∧
        generated.pack = .ok compacted) ∧
      Accepts g compacted [.nth 2, .nth 2] tree trace ∧
      ∀ tree trace, ¬ Accepts g plain [.nth 2, .nth 2] tree trace := by
  let x : TerminalId := .nth 2
  have hplain : (Config.tablesOf {} single).any (fun (g, _, tables) =>
      (run g tables 20 (start [x, x]) []).1.failure? ==
        some (.syntaxError x (.nth 2))) = true := by
    decide +kernel
  have hcompacted : (Config.tablesOf { compact := true } single).any (fun (g, _, tables) =>
      (run g tables 20 (start [x, x]) []).1.failure? == none) = true := by
    decide +kernel
  obtain ⟨⟨g, generated, plain⟩, htables, hrun⟩ := (Option.any_eq_true _ _).mp hplain
  obtain ⟨⟨g', generated', compacted⟩, htables', hrun'⟩ := (Option.any_eq_true _ _).mp hcompacted
  obtain ⟨hg, ⟨reports, hgenerate⟩, hpack⟩ := Config.tablesOf_eq_some htables
  obtain ⟨hg', ⟨reports', hgenerate'⟩, hpack'⟩ := Config.tablesOf_eq_some htables'
  obtain rfl : g = g' := Except.ok.inj (hg.symm.trans hg')
  obtain ⟨tree, trace, haccepts⟩ := exists_accepts_of_run _ (beq_iff_eq.mp hrun')
  exact ⟨g, plain, compacted, tree, trace, hg, ⟨generated, reports, hgenerate, hpack⟩,
    ⟨generated', reports', hgenerate', hpack'⟩, haccepts,
    not_accepts_of_run _ (beq_iff_eq.mp hrun) nofun⟩

end Lalr.Parser
