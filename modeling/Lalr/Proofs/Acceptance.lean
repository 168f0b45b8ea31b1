import Lalr.Proofs.Soundness

namespace Lalr.Config

/-- A reduction by the start production stands nowhere but in the cell of the end of the input, in
the row of the state that the start state enters over the start symbol. -/
theorem eq_eof_of_reduce_start {declarations : List Declaration} {g : Grammar}
    (hg : Grammar.define declarations = .ok g) (hstart : ¬ g.MentionsStart) {config : Config}
    (hplain : config.compact = false) {sink reports : Diagnostics} {generated : Generated}
    (h : config.generate g sink = ⟨.ok generated, reports⟩) :
    ∀ q t, generated.actions.get? q t = some (.reduce .start) →
      t = .eof ∧ ∃ first, generated.automaton.state? .start = some first ∧
        first.transition? (.nonterminal g.start) = some q := by
  have hwell := Grammar.wellFormed_of_define hg
  obtain ⟨tables, reported, hbuild, htables, hyields⟩ := generate_eq_ok h
  have hactions := hyields.actions
  rw [hplain, if_neg Bool.false_ne_true] at hactions
  have hexact := Automaton.exact_of_build hwell hbuild
  intro r t hcell
  rw [hactions, ActionTable.get?, ActionTable.row?] at hcell
  obtain ⟨row, hrow, hcell⟩ := Option.bind_eq_some_iff.mp hcell
  obtain ⟨q, gotos, hq, htabulated⟩ := (Tables.tabulate_of_fill htables).exists_state hrow
  obtain ⟨item, hitem, hp, hafter, ht⟩ := htabulated.reduce hcell
  obtain ⟨slot, hslot⟩ := Array.getElem?_of_mem hitem
  obtain ⟨γ, hγ, hvalid⟩ := (hexact.lookahead hq hslot t).mp ht
  obtain rfl := hvalid.validItem.eq_start hwell hstart hp hafter
  refine ⟨hvalid.eq_eof hwell hstart hp, ?_⟩
  have hfollow := (hexact.follow?_eq_some hq).mpr hγ
  simpa [Automaton.follow?, Option.bind_eq_some_iff] using hfollow

theorem eq_eof_of_reduce_start_sums :
    ∃ g generated reports, Grammar.define Parser.sums = .ok g ∧ ¬ g.MentionsStart ∧
      generate {} g ∅ = ⟨.ok generated, reports⟩ ∧ ∃ q first,
        generated.actions.get? q .eof = some (.reduce .start) ∧
        generated.automaton.state? .start = some first ∧
        first.transition? (.nonterminal g.start) = some q := by
  have hrun : (tablesOf {} Parser.sums).any (fun (g, generated, _) =>
      (g.productions.all fun p => !p.symbols.contains (.nonterminal .start)) ∧
        generated.actions.get? (.nth 1) .eof = some (.reduce .start)) = true := by
    decide +kernel
  obtain ⟨⟨g, generated, tables⟩, htables, hchecks⟩ := (Option.any_eq_true _ _).mp hrun
  rw [decide_eq_true_eq] at hchecks
  obtain ⟨hstart, hcell⟩ := hchecks
  obtain ⟨hg, ⟨reports, hgenerate⟩, -⟩ := tablesOf_eq_some htables
  obtain ⟨-, first, hfirst, htransition⟩ :=
    eq_eof_of_reduce_start hg (Parser.not_mentionsStart hstart) rfl hgenerate _ _ hcell
  exact ⟨g, generated, reports, hg, Parser.not_mentionsStart hstart, hgenerate, _, first, hcell,
    hfirst, htransition⟩

/-- The grammar of `S ::= $START y` and `S ::= x`. -/
def nested : List Declaration :=
  [.terminal "x" none, .terminal "y" none, .nonterminal "S",
    .rule (.nth 1) [.nonterminal 0, .terminal 3] none,
    .rule (.nth 1) [.terminal 2] none]

/-- A rule that mentions `$START` makes the start production reduce, and so the parser accept,
before the end of the input. -/
theorem reduce_start_nested :
    ∃ g generated reports, Grammar.define nested = .ok g ∧
      generate {} g ∅ = ⟨.ok generated, reports⟩ ∧ ∃ q t,
        generated.actions.get? q t = some (.reduce .start) ∧ t ≠ .eof := by
  have hrun : (tablesOf {} nested).any (fun (_, generated, _) =>
      generated.actions.get? (.nth 1) (.nth 3) = some (.reduce .start)) = true := by
    decide +kernel
  obtain ⟨⟨g, generated, tables⟩, htables, hcell⟩ := (Option.any_eq_true _ _).mp hrun
  obtain ⟨hg, ⟨reports, hgenerate⟩, -⟩ := tablesOf_eq_some htables
  exact ⟨g, generated, reports, hg, hgenerate, _, _, of_decide_eq_true hcell, by decide⟩

end Lalr.Config
