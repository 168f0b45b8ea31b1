import Lalr.Proofs.Meetings

namespace Lalr

variable {g : Grammar}

namespace State

def expecting (g : Grammar) (q : State) (t : TerminalId) : List ItemCore :=
  q.items.items.toList.filterMap fun item =>
    if (g.after item.core).head? = some (.terminal t) then some item.core else none

def shiftReduceReport (g : Grammar) (q : State) (t : TerminalId) (p : ProductionId) : Diagnostic :=
  .shiftReduce q.id (g.finalCore p) (q.expecting g t) t

theorem Grounded.shiftReduceConflict_eq {q : State} (hq : q.Grounded g) {completed : List Item}
    (hcompleted : q.completed g = .ok completed) {t : TerminalId} {p : ProductionId}
    (h : ∃ item ∈ completed, item.core.production = p) :
    q.shiftReduceConflict g completed t p = .ok (q.shiftReduceReport g t p) := by
  obtain ⟨item, hitem, rfl⟩ := h
  have hshifts : q.items.items.toList.filterMapM (fun item : Item => do
      return if (← item.core.symbolAfterDot g) = some (Symbol.terminal t) then some item.core
        else none) = .ok (q.expecting g t) := by
    refine filterMapM_eq_ok fun item hitem => ?_
    rw [Grammar.symbolAfterDot_eq (hq.production item (Array.mem_toList_iff.mp hitem))]
    rfl
  unfold shiftReduceConflict
  split
  · rename_i hnone
    have := List.find?_eq_none.mp hnone item hitem
    simp at this
  · rename_i reduce hreduce
    have hmem := (mem_completedOf hcompleted).mp (List.mem_of_find?_eq_some hreduce)
    have hcore := hq.core_eq (Array.mem_toList_iff.mp hmem.1) hmem.2
    have hproduction := List.find?_some hreduce
    simp only [beq_iff_eq] at hproduction
    rw [hproduction] at hcore
    rw [hshifts, hcore]
    rfl

theorem Grounded.shiftReduceConflicts_eq {q : State} (hq : q.Grounded g) {completed : List Item}
    (hcompleted : q.completed g = .ok completed) {meetings : List (TerminalId × ProductionId)}
    (h : ∀ t p, (t, p) ∈ meetings → ∃ item ∈ completed, item.core.production = p) :
    q.shiftReduceConflicts g completed meetings =
      ⟨.ok (), meetings.map fun (t, p) => q.shiftReduceReport g t p⟩ := by
  induction meetings with
  | nil => rfl
  | cons meeting meetings ih =>
      obtain ⟨t, p⟩ := meeting
      rw [State.shiftReduceConflicts,
        hq.shiftReduceConflict_eq hcompleted (h t p List.mem_cons_self),
        ih fun t p hmem => h t p (List.mem_cons_of_mem _ hmem)]
      rfl

/-- Rows in which each cell holds what the state is to do. -/
structure Settled (g : Grammar) (q : State) (row : ActionRow) (gotos : GotoRow) : Prop where
  size : row.cells.size = g.terminals.size
  default : row.default = none
  cell : ∀ t, g.Knows (.terminal t) → ∃ action, row.get? t = some action ∧ q.Resolves g t action
  gotos_size : gotos.size = g.nonterminals.size
  goto : ∀ n : NonterminalId, gotos[n.index]?.join = q.transition? (.nonterminal n)

theorem Grounded.tabulate_eq {q : State} (hq : q.Grounded g) {completed : List Item} {f : Filling}
    (hcompleted : q.completed g = .ok completed)
    (hfill : (Filling.blank g).proposeAll g q.id (q.proposals completed) = ⟨.ok (), f⟩) :
    q.tabulate g = ⟨.ok (f.actions, f.gotos,
        { conflicts := (q.reduceReduceConflicts completed).length + f.unresolved.length
          shiftReduce := (f.resolved q.id).length + f.unresolved.length
          reduceReduce := (q.reduceReduceConflicts completed).length
          resolved := (f.resolved q.id).length }),
      f.resolved q.id ++ q.reduceReduceConflicts completed ++
        f.unresolved.map fun (t, p) => q.shiftReduceReport g t p⟩ := by
  have hmade : ∀ t p, (t, p) ∈ f.unresolved → ∃ item ∈ completed, item.core.production = p := by
    intro t p hmem
    rw [Filling.unresolved_eq (Filling.tells_blank.proposeAll hfill)] at hmem
    have hmeeting := (hq.mem_meetings hcompleted hfill).2.mp (List.mem_filter.mp hmem).1
    obtain ⟨item, hitem, hp, hend, -⟩ := hmeeting.1.1
    exact ⟨item, (hq.ends_iff hcompleted).mpr ⟨hitem, hend⟩, hp⟩
  unfold tabulate
  rw [hcompleted]
  simp only [hfill, hq.shiftReduceConflicts_eq hcompleted hmade]
  rfl

theorem Grounded.exists_tabulate {q : State} (hq : q.Grounded g) :
    ∃ row gotos counts reports, q.tabulate g = ⟨.ok (row, gotos, counts), reports⟩ ∧
      q.Settled g row gotos := by
  obtain ⟨completed, f, hcompleted, hfill, hsettles⟩ := hq.exists_filling
  have htabulate := hq.tabulate_eq hcompleted hfill
  have hreflects := Filling.reflects_blank.proposeAll hfill
  refine ⟨_, _, _, _, htabulate, ?_⟩
  refine ⟨hreflects.size, hreflects.default, ?_, hreflects.gotos_size, ?_⟩
  · intro t ht
    obtain ⟨action, hcell, hmeet⟩ := hsettles.cell (get?_blank.mpr ⟨ht, rfl⟩)
    obtain ⟨action', hresolves, hmeet'⟩ := hq.exists_meetAll hcompleted t
    rw [hmeet', Except.ok.injEq] at hmeet
    exact ⟨action, hcell, hmeet ▸ hresolves⟩
  · intro n
    apply Option.ext
    intro s
    rw [(tabulate_ok htabulate).goto hq.nodup, transition?_eq_some hq.nodup]

end State

namespace Tables

/-- The tables hold what each state is to do, in full rows without defaults. -/
structure Resolved (g : Grammar) (a : Automaton) (tables : Tables) : Prop where
  size : tables.actions.rows.size = a.states.size
  gotos_size : tables.gotos.rows.size = a.states.size
  row : ∀ row ∈ tables.actions.rows, row.cells.size = g.terminals.size ∧ row.default = none
  gotoRow : ∀ row ∈ tables.gotos.rows, row.size = g.nonterminals.size
  action : ∀ q ∈ a.states, ∀ t : TerminalId, t.index < g.terminals.size → ∀ action,
    tables.actions.get? q.id t = some action ↔ q.Resolves g t action
  goto : ∀ q ∈ a.states, ∀ n, tables.gotos.get? q.id n = q.transition? (.nonterminal n)

theorem exists_addStates {σ : Type} [DiagnosticSink σ] {states : List State}
    (h : ∀ q ∈ states, q.Grounded g) (tables : Tables) (sink : σ) :
    ∃ tables' sink', addStates g tables sink states = ⟨.ok tables', sink'⟩ ∧
      ∃ rows : List (ActionRow × GotoRow),
        tables'.actions.rows.toList = tables.actions.rows.toList ++ rows.map (·.1) ∧
        tables'.gotos.rows.toList = tables.gotos.rows.toList ++ rows.map (·.2) ∧
        List.Forall₂ (fun q r => q.Settled g r.1 r.2) states rows := by
  induction states generalizing tables sink with
  | nil => exact ⟨tables, sink, rfl, [], by simp, by simp, .nil⟩
  | cons q states ih =>
      obtain ⟨row, gotos, counts, reports, htabulate, hsettled⟩ :=
        (h q List.mem_cons_self).exists_tabulate
      obtain ⟨tables', sink', hrest, rows, hactions, hgotos, hrows⟩ :=
        ih (fun q hq => h q (List.mem_cons_of_mem _ hq))
          ⟨⟨tables.actions.rows.push row⟩, ⟨tables.gotos.rows.push gotos⟩,
            tables.counts.add counts⟩ (DiagnosticSink.reportAll sink reports)
      refine ⟨tables', sink', ?_, (row, gotos) :: rows, ?_, ?_, .cons hsettled hrows⟩
      · rw [addStates, htabulate]
        exact hrest
      · rw [hactions]
        simp
      · rw [hgotos]
        simp

end Tables

theorem Automaton.Exact.grounded {a : Automaton} (ha : a.Exact g) (hg : g.WellFormed)
    (hclosed : g.Closed) {q : State} (hq : q ∈ a.states) : q.Grounded g := by
  obtain ⟨i, hi⟩ := Array.getElem?_of_mem hq
  have hvalid : ∀ item ∈ q.items.items, ∃ γ, g.ValidItem γ item.core := by
    intro item hitem
    obtain ⟨γ, hγ⟩ := ha.holds hi
    exact ⟨γ, hγ.validItem hitem⟩
  refine ⟨?_, ?_, ?_, ?_, ha.nodup hi⟩
  · intro item hitem
    obtain ⟨γ, hγ⟩ := hvalid item hitem
    exact hγ.production_isSome hg
  · intro item hitem
    obtain ⟨γ, hγ⟩ := hvalid item hitem
    obtain ⟨n, rhs, -, ⟨p, hp, -, rfl⟩, hle, -⟩ := hγ.split hg
    rw [Grammar.finalCore, hp, Option.elim_some, Rule.length]
    simpa [Rule.symbols] using hle
  · intro item hitem t ht
    obtain ⟨slot, hslot⟩ := Array.getElem?_of_mem hitem
    obtain ⟨γ, -, hvalid⟩ := (ha.lookahead hi hslot t).mp ht
    exact hclosed.validLookahead hvalid
  · intro symbol s hs
    obtain ⟨c, -, rest, hc⟩ := (ha.expected hi symbol).mp (List.mem_map.mpr ⟨_, hs, rfl⟩)
    exact hclosed.after (hc ▸ List.mem_cons_self)

namespace Tables

theorem Resolved.of_rows {a : Automaton} {tables : Tables}
    (hid : ∀ {i : Nat} {q : State}, a.states[i]? = some q → q.id.index = i)
    {rows : List (ActionRow × GotoRow)} (hactions : tables.actions.rows.toList = rows.map (·.1))
    (hgotos : tables.gotos.rows.toList = rows.map (·.2))
    (hrows : List.Forall₂ (fun q r => q.Settled g r.1 r.2) a.states.toList rows) :
    tables.Resolved g a := by
  obtain ⟨hactionSize, hgotoSize, hsettled⟩ := exists_rows hactions hgotos hrows
  refine ⟨hactionSize, hgotoSize, ?_, ?_, ?_, ?_⟩
  · intro row hrow
    obtain ⟨i, hlt, rfl⟩ := Array.mem_iff_getElem.mp hrow
    obtain ⟨row, gotos, hrow', -, hq⟩ :=
      hsettled (Array.getElem?_eq_getElem (hactionSize ▸ hlt))
    rw [Array.getElem?_eq_getElem hlt, Option.some.injEq] at hrow'
    rw [hrow']
    exact ⟨hq.size, hq.default⟩
  · intro gotos hgotoRow
    obtain ⟨i, hlt, rfl⟩ := Array.mem_iff_getElem.mp hgotoRow
    obtain ⟨row, gotos, -, hgotos', hq⟩ :=
      hsettled (Array.getElem?_eq_getElem (hgotoSize ▸ hlt))
    rw [Array.getElem?_eq_getElem hlt, Option.some.injEq] at hgotos'
    rw [hgotos']
    exact hq.gotos_size
  · intro q hq t ht action
    obtain ⟨i, hi⟩ := Array.getElem?_of_mem hq
    obtain ⟨row, gotos, hrow, -, hsettled⟩ := hsettled hi
    obtain ⟨action', hcell, hresolves⟩ := hsettled.cell t ht
    rw [ActionTable.get?, ActionTable.row?, hid hi, hrow, Option.bind_some, hcell,
      Option.some.injEq]
    constructor
    · rintro rfl
      exact hresolves
    · exact hresolves.unique
  · intro q hq n
    obtain ⟨i, hi⟩ := Array.getElem?_of_mem hq
    obtain ⟨row, gotos, -, hgotos', hsettled⟩ := hsettled hi
    rw [GotoTable.get?, hid hi, hgotos', Option.bind_some, hsettled.goto]

/-- Filling the tables of an automaton always succeeds, and its cells are the declared resolution
of what the states propose. -/
theorem resolved_of_build {declarations : List Declaration} {a : Automaton}
    (hg : Grammar.define declarations = .ok g) (ha : Automaton.build g = .ok a)
    (sink : Diagnostics) :
    ∃ tables reported, build g a sink = ⟨.ok tables, reported⟩ ∧ tables.Resolved g a := by
  have hwell := Grammar.wellFormed_of_define hg
  have hexact := Automaton.exact_of_build hwell ha
  obtain ⟨tables, reported, hbuild, rows, hactions, hgotos, hrows⟩ :=
    exists_addStates (fun q hq => hexact.grounded hwell (Grammar.closed_of_define hg)
      (Array.mem_toList_iff.mp hq)) empty sink
  exact ⟨tables, reported, hbuild, .of_rows hexact.id hactions hgotos hrows⟩

/-- The grammar of `E ::= E "<" E` and `E ::= x`, where comparisons cannot be chained. -/
def comparisons : List Declaration :=
  [.terminal "x" none, .terminal "<" (some ⟨1, .nonassoc⟩), .nonterminal "E",
    .rule (.nth 1) [.nonterminal 1, .terminal 3, .nonterminal 1] none,
    .rule (.nth 1) [.terminal 2] none]

theorem resolved_of_build_comparisons :
    ∃ g a tables reported, Grammar.define comparisons = .ok g ∧ Automaton.build g = .ok a ∧
      build g a ∅ = ⟨.ok tables, reported⟩ ∧ ∃ q ∈ a.states,
        tables.actions.get? q.id (.nth 3) = some .nonassoc ∧ q.Resolves g (.nth 3) .nonassoc := by
  let less : TerminalId := .nth 3
  have hrun : (Automaton.ofDeclarations comparisons).any (fun (g, a) =>
      less.index < g.terminals.size ∧ ∃ tables ∈ (build g a ∅).outcome.toOption,
        a.states.any fun q => tables.actions.get? q.id less = some .nonassoc) = true := by
    decide +kernel
  obtain ⟨⟨g, a⟩, hbuilt, hchecks⟩ := (Option.any_eq_true _ _).mp hrun
  obtain ⟨hg, ha⟩ := Automaton.ofDeclarations_eq_some hbuilt
  obtain ⟨tables, reported, hbuild, hresolved⟩ := resolved_of_build hg ha ∅
  simp only [hbuild, Except.toOption, Option.mem_def, Option.some.injEq, exists_eq_left',
    Array.any_eq_true', decide_eq_true_eq] at hchecks
  obtain ⟨hless, q, hq, hcell⟩ := hchecks
  exact ⟨g, a, tables, reported, hg, ha, hbuild, q, hq, hcell,
    (hresolved.action q hq less hless .nonassoc).mp hcell⟩

end Tables

end Lalr
