import Lalr.Generator
import Lalr.Proofs.DefaultReductions
import Lalr.Proofs.Packing
import Lalr.Proofs.Tabulation

namespace Lalr

variable {g : Grammar} {a : Automaton}

namespace ActionRow

theorem mem_cells_of_mostFrequent {row : ActionRow} {p : ProductionId}
    (h : row.mostFrequent = some p) : .reduce p ∈ row.cells :=
  Array.mem_toList_iff.mp (mostFrequent_eq_some.mp h).mem

theorem exists_of_mostFrequent {row : ActionRow} (hsize : row.cells.size ≤ 65536)
    {p : ProductionId} (h : row.mostFrequent = some p) :
    ∃ t, row.get? t = some (.reduce p) := by
  obtain ⟨i, hi⟩ := Array.getElem?_of_mem (mem_cells_of_mostFrequent h)
  have hlt := (Array.getElem?_eq_some_iff.mp hi).1
  exact ⟨⟨i, Nat.lt_of_lt_of_le hlt hsize⟩, hi⟩

theorem effective_of_shift (row : ActionRow) {t : TerminalId} {s : StateId}
    (h : row.get? t = some (.shift s)) : row.effective t = .shift s := by
  rw [effective, h]

theorem effective_of_reduce (row : ActionRow) {t : TerminalId} {p : ProductionId}
    (h : row.get? t = some (.reduce p)) : row.effective t = .reduce p := by
  rw [effective, h]

theorem effective_of_nonassoc (row : ActionRow) {t : TerminalId}
    (h : row.get? t = some .nonassoc) : row.effective t = .error := by
  rw [effective, h]

theorem get?_of_effective_shift (row : ActionRow) {t : TerminalId} {s : StateId}
    (h : row.effective t = .shift s) : row.get? t = some (.shift s) := by
  unfold effective at h
  split at h
  · rename_i hcell
    cases h
    exact hcell
  · cases h
  · cases h
  · rcases hdefault : row.default with _ | p
    · rw [hdefault] at h
      cases h
    · rw [hdefault] at h
      cases h

theorem get?_of_effective_reduce (row : ActionRow) {t : TerminalId} {p : ProductionId}
    (h : row.effective t = .reduce p) :
    row.get? t = some (.reduce p) ∨ row.default = some p ∧
      ∀ action, row.get? t = some action → action = .error := by
  unfold effective at h
  split at h
  · cases h
  · rename_i hcell
    cases h
    exact .inl hcell
  · cases h
  · rename_i hshift hreduce hnonassoc
    rcases hdefault : row.default with _ | p'
    · rw [hdefault] at h
      cases h
    · rw [hdefault] at h
      cases h
      refine .inr ⟨rfl, fun action haction => ?_⟩
      rcases action with _ | s | p'' | _
      · rfl
      · exact absurd haction (hshift s)
      · exact absurd haction (hreduce p'')
      · exact absurd haction hnonassoc

end ActionRow

def Config.defaultOf (config : Config) (row : ActionRow) : Option ProductionId :=
  if config.compact then row.mostFrequent else none

/-- What packed tables take over from an automaton. -/
structure PackedTables.Drives (g : Grammar) (a : Automaton) (tables : PackedTables) : Prop where
  startState : tables.startState = .start
  startProduction : tables.startProduction = .start
  shift : ∀ {r : StateId} {q : State} {t s}, a.states[r.index]? = some q →
    tables.action r t = .ok (.shift s) → (.terminal t, s) ∈ q.transitions
  reduce : ∀ {r : StateId} {q : State} {t p}, a.states[r.index]? = some q →
    tables.action r t = .ok (.reduce p) → ∃ item ∈ q.items.items, item.core.production = p ∧
      g.after item.core = []
  goto : ∀ {r : StateId} {q : State}, a.states[r.index]? = some q → ∀ n,
    tables.goto r n = .ok (q.transition? (.nonterminal n))

/-- Packed tables, the rows they were made from and the automaton behind them. -/
structure PackedTables.MadeFrom (g : Grammar) (a : Automaton) (config : Config) (dense : Tables)
    (tables : PackedTables) : Prop extends tables.Drives g a where
  exact : a.Exact g
  tabulate : dense.Tabulate g a
  action : ∀ {r : StateId} {row : ActionRow}, dense.actions.rows[r.index]? = some row → ∀ t,
    tables.action r t = .ok ({ row with default := config.defaultOf row }.effective t)

namespace PackedTables.MadeFrom

variable {config : Config} {dense : Tables} {tables : PackedTables} {r s : StateId}
  {row : ActionRow} {t : TerminalId} {p : ProductionId}

theorem rows (hm : tables.MadeFrom g a config dense) {q : State}
    (hq : a.states[r.index]? = some q) :
    ∃ row gotos, dense.actions.rows[r.index]? = some row ∧
      q.Tabulated g dense.counts row gotos := by
  obtain ⟨row, gotos, hrow, -, htab⟩ := hm.tabulate.rows hq
  exact ⟨row, gotos, hrow, htab⟩

theorem action_shift (hm : tables.MadeFrom g a config dense)
    (hrow : dense.actions.rows[r.index]? = some row) :
    tables.action r t = .ok (.shift s) ↔ row.get? t = some (.shift s) := by
  rw [hm.action hrow, Except.ok.injEq]
  constructor
  · intro h
    exact ActionRow.get?_of_effective_shift { row with default := config.defaultOf row } h
  · intro h
    exact ActionRow.effective_of_shift { row with default := config.defaultOf row } h

theorem action_of_reduce (hm : tables.MadeFrom g a config dense)
    (hrow : dense.actions.rows[r.index]? = some row) (h : row.get? t = some (.reduce p)) :
    tables.action r t = .ok (.reduce p) := by
  rw [hm.action hrow]
  exact congrArg _ (ActionRow.effective_of_reduce { row with default := config.defaultOf row } h)

theorem action_of_nonassoc (hm : tables.MadeFrom g a config dense)
    (hrow : dense.actions.rows[r.index]? = some row) (h : row.get? t = some .nonassoc) :
    tables.action r t = .ok .error := by
  rw [hm.action hrow]
  exact congrArg _ (ActionRow.effective_of_nonassoc { row with default := config.defaultOf row } h)

theorem reduce_of_action (hm : tables.MadeFrom g a config dense)
    (hrow : dense.actions.rows[r.index]? = some row) (h : tables.action r t = .ok (.reduce p)) :
    row.get? t = some (.reduce p) ∨ config.defaultOf row = some p ∧
      ∀ action, row.get? t = some action → action = .error := by
  rw [hm.action hrow, Except.ok.injEq] at h
  exact ActionRow.get?_of_effective_reduce { row with default := config.defaultOf row } h

theorem reduce_of_action_plain (hm : tables.MadeFrom g a config dense)
    (hplain : config.compact = false) (hrow : dense.actions.rows[r.index]? = some row)
    (h : tables.action r t = .ok (.reduce p)) : row.get? t = some (.reduce p) := by
  apply (hm.reduce_of_action hrow h).resolve_right
  rintro ⟨hdefault, -⟩
  simp [Config.defaultOf, hplain] at hdefault

end PackedTables.MadeFrom

namespace State.Tabulated

variable {q : State} {counts : ConflictCounts} {row : ActionRow} {gotos : GotoRow}

theorem size_le (hg : g.WellFormed) (h : q.Tabulated g counts row gotos) :
    row.cells.size ≤ 65536 :=
  Nat.le_trans (Nat.le_of_eq h.size) (Nat.le_succ_of_le hg.terminals_le)

theorem gotos_size_le (hg : g.WellFormed) (h : q.Tabulated g counts row gotos) :
    gotos.size ≤ 65536 :=
  Nat.le_trans (Nat.le_of_eq h.gotos_size) (Nat.le_succ_of_le hg.nonterminals_le)

theorem goto_eq (h : q.Tabulated g counts row gotos) (hq : (q.transitions.map (·.1)).Nodup)
    (n : NonterminalId) : gotos[n.index]?.join = q.transition? (.nonterminal n) := by
  refine Option.ext fun s => ?_
  rw [h.goto hq, State.transition?_eq_some hq]

/-- Whatever a row reduces by, be it by default, one of its cells asks for. -/
theorem exists_cell (hg : g.WellFormed) (h : q.Tabulated g counts row gotos) (config : Config)
    {t : TerminalId} {p : ProductionId}
    (hp : { row with default := config.defaultOf row }.effective t = .reduce p) :
    ∃ u, row.get? u = some (.reduce p) := by
  rcases ActionRow.get?_of_effective_reduce _ hp with hp | ⟨hp, -⟩
  · exact ⟨t, hp⟩
  · change config.defaultOf row = some p at hp
    unfold Config.defaultOf at hp
    split at hp
    · exact ActionRow.exists_of_mostFrequent (h.size_le hg) hp
    · cases hp

theorem exists_completed (hg : g.WellFormed) (h : q.Tabulated g counts row gotos) (config : Config)
    {t : TerminalId} {p : ProductionId}
    (hp : { row with default := config.defaultOf row }.effective t = .reduce p) :
    ∃ item ∈ q.items.items, item.core.production = p ∧ g.after item.core = [] := by
  obtain ⟨u, hu⟩ := h.exists_cell hg config hp
  obtain ⟨item, hitem, hproduction, hafter, -⟩ := h.reduce hu
  exact ⟨item, hitem, hproduction, hafter⟩

end State.Tabulated

namespace Tables

section Pack

variable {tables : Tables} (ht : tables.Tabulate g a) (config : Config)

include ht

theorem Tabulate.exists_state {i : Nat} {row : ActionRow}
    (hrow : tables.actions.rows[i]? = some row) :
    ∃ q gotos, a.states[i]? = some q ∧ q.Tabulated g tables.counts row gotos := by
  have hlt : i < a.states.size := ht.size ▸ (Array.getElem?_eq_some_iff.mp hrow).1
  obtain ⟨row', gotos, hrow', -, htab⟩ := ht.rows (Array.getElem?_eq_getElem hlt)
  rw [hrow, Option.some.injEq] at hrow'
  exact ⟨_, gotos, Array.getElem?_eq_getElem hlt, hrow' ▸ htab⟩

theorem Tabulate.getElem?_compacted {i : Nat} :
    (if config.compact then tables.actions.compact else tables.actions).rows[i]? =
      tables.actions.rows[i]?.map fun row => { row with default := config.defaultOf row } := by
  rcases hrow : tables.actions.rows[i]? with _ | row
  · split
    · simp [ActionTable.compact, hrow]
    · rw [hrow]
      rfl
  · obtain ⟨q, gotos, -, htab⟩ := ht.exists_state hrow
    unfold Config.defaultOf
    split
    · simp [ActionTable.compact, hrow, ActionRow.compact]
    · rw [hrow, ← htab.default]
      rfl

theorem Tabulate.cells_le (hg : g.WellFormed) :
    ∀ row ∈ (if config.compact then tables.actions.compact else tables.actions).rows,
      row.cells.size ≤ 65536 := by
  intro row hrow
  obtain ⟨i, hi⟩ := Array.getElem?_of_mem hrow
  rw [ht.getElem?_compacted config] at hi
  obtain ⟨old, hold, rfl⟩ := Option.map_eq_some_iff.mp hi
  obtain ⟨q, gotos, -, htab⟩ := ht.exists_state hold
  have hle := htab.size_le hg
  exact hle

theorem Tabulate.gotos_le (hg : g.WellFormed) : ∀ row ∈ tables.gotos.rows, row.size ≤ 65536 := by
  intro row hrow
  obtain ⟨i, hi⟩ := Array.getElem?_of_mem hrow
  have hlt : i < a.states.size := ht.gotos_size ▸ (Array.getElem?_eq_some_iff.mp hi).1
  obtain ⟨row', gotos, -, hgotos, htab⟩ := ht.rows (Array.getElem?_eq_getElem hlt)
  rw [hi, Option.some.injEq] at hgotos
  subst hgotos
  exact htab.gotos_size_le hg

theorem Tabulate.pack (hg : g.WellFormed) (ha : a.Exact g) :
    ∃ packed, PackedTables.pack
        (if config.compact then tables.actions.compact else tables.actions) tables.gotos
        .start .start = .ok packed ∧ packed.MadeFrom g a config tables := by
  obtain ⟨packed, hpack⟩ := PackedTables.exists_pack .start .start
    (fun row hrow => Nat.le_trans (ht.cells_le config hg row hrow) (by decide))
    (fun row hrow => Nat.le_trans (ht.gotos_le hg row hrow) (by decide))
  obtain ⟨-, -, hstart, hproduction⟩ := PackedTables.pack_eq_ok hpack
  have hrows {r : StateId} {row : ActionRow} (hrow : tables.actions.rows[r.index]? = some row)
      (t : TerminalId) : packed.action r t =
        .ok ({ row with default := config.defaultOf row }.effective t) := by
    refine PackedTables.action_of_pack hpack ?_ t
    rw [ht.getElem?_compacted config, hrow]
    rfl
  refine ⟨packed, hpack, ⟨hstart, hproduction, ?_, ?_, ?_⟩, ha, ht, hrows⟩
  · intro r q t s hq hs
    obtain ⟨row, gotos, hrow, -, htab⟩ := ht.rows hq
    rw [hrows hrow, Except.ok.injEq] at hs
    exact htab.shift
      (ActionRow.get?_of_effective_shift { row with default := config.defaultOf row } hs)
  · intro r q t p hq hp
    obtain ⟨row, gotos, hrow, -, htab⟩ := ht.rows hq
    rw [hrows hrow, Except.ok.injEq] at hp
    exact htab.exists_completed hg config hp
  · intro r q hq n
    obtain ⟨row, gotos, -, hgotos, htab⟩ := ht.rows hq
    rw [PackedTables.goto_of_pack hpack hgotos, htab.goto_eq (ha.nodup hq)]

end Pack

end Tables

namespace Tables

/-- How the tables come out does not depend on what takes the reports. -/
theorem outcome_addStates {σ τ : Type} [DiagnosticSink σ] [DiagnosticSink τ] (tables : Tables)
    (sink : σ) (sink' : τ) (states : List State) :
    (addStates g tables sink states).outcome = (addStates g tables sink' states).outcome := by
  induction states generalizing tables sink sink' with
  | nil => rfl
  | cons q states ih =>
      unfold addStates
      split
      · rfl
      · exact ih _ _ _

theorem exists_fill {σ τ : Type} [DiagnosticSink σ] [DiagnosticSink τ] {tables : Tables}
    {sink reported : σ} (h : fill g a sink = ⟨.ok tables, reported⟩) (sink' : τ) :
    ∃ reported', fill g a sink' = ⟨.ok tables, reported'⟩ := by
  have houtcome : (fill g a sink').outcome = .ok tables := by
    rw [fill, outcome_addStates empty sink' sink, ← fill, h]
  exact ⟨(fill g a sink').state, by rw [← houtcome]⟩

end Tables

namespace Config

variable {config : Config} {sink reports : Diagnostics} {generated : Generated}

structure Yields (config : Config) (g : Grammar) (tables : Tables) (generated : Generated) :
    Prop where
  actions : generated.actions = if config.compact then tables.actions.compact else tables.actions
  gotos : generated.gotos = tables.gotos
  counts : generated.summary.counts = tables.counts
  unusedTerminals : generated.summary.unusedTerminals = g.unused.terminals
  unusedNonterminals : generated.summary.unusedNonterminals = g.unused.nonterminals
  unreduced : generated.summary.unreduced = generated.actions.unreduced g

theorem run_eq_ok {counting counting' : CountingSink}
    (h : config.run g counting = ⟨.ok generated, counting'⟩) :
    ∃ tables reported, Automaton.build g = .ok generated.automaton ∧
      Tables.fill g generated.automaton (g.checkUnused config.quiet counting).2 =
        ⟨.ok tables, reported⟩ ∧
      config.Yields g tables generated ∧
      counting' = DiagnosticSink.reportAll reported
        (config.closingReports generated.summary.unreduced tables.counts) ∧
      generated.summary.errors = counting'.errors ∧
      generated.summary.warnings = counting'.warnings := by
  unfold run at h
  simp only at h
  split at h
  · cases h
  · rename_i automaton hbuild
    split at h
    · cases h
    · rename_i tables reported htables
      cases h
      exact ⟨tables, reported, hbuild, htables, ⟨rfl, rfl, rfl, rfl, rfl, rfl⟩, rfl, rfl, rfl⟩

theorem exists_run {σ : Type} [DiagnosticSink σ] {told reported : σ} {tables : Tables}
    (hbuild : Automaton.build g = .ok a) (htables : Tables.fill g a told = ⟨.ok tables, reported⟩)
    (config : Config) (counting : CountingSink) :
    ∃ generated counting', config.run g counting = ⟨.ok generated, counting'⟩ ∧
      generated.automaton = a ∧ config.Yields g tables generated := by
  obtain ⟨reported', htables'⟩ :=
    Tables.exists_fill htables (g.checkUnused config.quiet counting).2
  unfold run
  simp only [hbuild, htables']
  exact ⟨_, _, rfl, rfl, ⟨rfl, rfl, rfl, rfl, rfl, rfl⟩⟩

theorem exists_run_of_generate (h : config.generate g sink = ⟨.ok generated, reports⟩) :
    ∃ counting, config.run g { inner := sink } = ⟨.ok generated, counting⟩ ∧
      counting.inner = reports := by
  unfold generate at h
  split at h
  · rename_i counting hrun
    cases h
    exact ⟨counting, hrun, rfl⟩
  · cases h

theorem exists_generate_of_fill {σ : Type} [DiagnosticSink σ] {told reported : σ} {tables : Tables}
    (hbuild : Automaton.build g = .ok a) (htables : Tables.fill g a told = ⟨.ok tables, reported⟩)
    (config : Config) (sink : Diagnostics) :
    ∃ generated reports, config.generate g sink = ⟨.ok generated, reports⟩ ∧
      generated.automaton = a ∧ config.Yields g tables generated := by
  obtain ⟨generated, counting, hrun, hautomaton, hyields⟩ :=
    exists_run hbuild htables config { inner := sink }
  refine ⟨generated, counting.inner, ?_, hautomaton, hyields⟩
  rw [generate, hrun]
  rfl

theorem generate_eq_ok (h : config.generate g sink = ⟨.ok generated, reports⟩) :
    ∃ (tables : Tables) (reported : Diagnostics), Automaton.build g = .ok generated.automaton ∧
      Tables.fill g generated.automaton sink = ⟨.ok tables, reported⟩ ∧
      config.Yields g tables generated := by
  obtain ⟨counting, hrun, -⟩ := exists_run_of_generate h
  obtain ⟨tables, reported, hbuild, htables, hyields, -⟩ := run_eq_ok hrun
  obtain ⟨reported', htables'⟩ := Tables.exists_fill htables sink
  exact ⟨tables, reported', hbuild, htables', hyields⟩

theorem exists_pack (hg : g.WellFormed) (h : config.generate g sink = ⟨.ok generated, reports⟩) :
    ∃ tables dense, generated.pack = .ok tables ∧
      tables.MadeFrom g generated.automaton config dense ∧
      dense.counts = generated.summary.counts := by
  obtain ⟨dense, reported, hbuild, htables, hyields⟩ := generate_eq_ok h
  obtain ⟨tables, hpack, hmade⟩ :=
    (Tables.tabulate_of_fill htables).pack config hg (Automaton.exact_of_build hg hbuild)
  refine ⟨tables, dense, ?_, hmade, hyields.counts.symm⟩
  rw [Generated.pack, hyields.actions, hyields.gotos]
  exact hpack

/-- Whether rows are compacted has no influence on the success of a generation, nor on the rows
apart from their defaults. -/
theorem exists_pack_compact (hg : g.WellFormed)
    (h : config.generate g sink = ⟨.ok generated, reports⟩) :
    ∃ dense, ∀ compact, ∃ generated' tables,
      (∃ reports', { config with compact }.generate g sink = ⟨.ok generated', reports'⟩) ∧
      generated'.pack = .ok tables ∧
      tables.MadeFrom g generated.automaton { config with compact } dense ∧
      generated'.actions = if compact then dense.actions.compact else dense.actions := by
  obtain ⟨dense, reported, hbuild, htables, -⟩ := generate_eq_ok h
  refine ⟨dense, fun compact => ?_⟩
  obtain ⟨tables, hpack, hmade⟩ := (Tables.tabulate_of_fill htables).pack
    { config with compact } hg (Automaton.exact_of_build hg hbuild)
  obtain ⟨generated', reports', hgenerate, -, hyields⟩ :=
    exists_generate_of_fill hbuild htables { config with compact } sink
  refine ⟨generated', tables, ⟨reports', hgenerate⟩, ?_, hmade, hyields.actions⟩
  rw [Generated.pack, hyields.actions, hyields.gotos]
  exact hpack

/-- The grammar of some declarations with its tables, unless a part of making them fails. -/
def tablesOf (config : Config) (declarations : List Declaration) :
    Option (Grammar × Generated × PackedTables) := do
  let g ← (Grammar.define declarations).toOption
  let generated ← (config.generate g ∅).outcome.toOption
  let tables ← generated.pack.toOption
  return (g, generated, tables)

theorem tablesOf_eq_some {declarations : List Declaration} {g : Grammar} {tables : PackedTables}
    (h : config.tablesOf declarations = some (g, generated, tables)) :
    Grammar.define declarations = .ok g ∧
      (∃ reports, config.generate g ∅ = ⟨.ok generated, reports⟩) ∧
      generated.pack = .ok tables := by
  simp only [tablesOf, bind, Option.bind_eq_some_iff, pure, Option.some.injEq] at h
  obtain ⟨g', hg, generated', hgenerated, tables', htables, heq⟩ := h
  cases heq
  refine ⟨toOption_eq_some.mp hg, ⟨(config.generate g ∅).state, ?_⟩, toOption_eq_some.mp htables⟩
  rw [← toOption_eq_some.mp hgenerated]

end Config

end Lalr
