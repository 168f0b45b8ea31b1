import Lalr.Proofs.Conflicts
import Lalr.Proofs.Generation

namespace Lalr

open DiagnosticSink (reportAll)

namespace Diagnostic

/-- Among some diagnostics are so many notes, warnings and errors. -/
structure Amount (entries : List Diagnostic) (notes warnings errors : Nat) : Prop where
  notes : entries.countP (·.severity = .note) = notes
  warnings : entries.countP (·.severity = .warning) = warnings
  errors : entries.countP (·.severity = .error) = errors

variable {entries entries' : List Diagnostic} {n w e n' w' e' : Nat}

theorem Amount.nil : Amount [] 0 0 0 :=
  ⟨rfl, rfl, rfl⟩

theorem Amount.append (h : Amount entries n w e) (h' : Amount entries' n' w' e') :
    Amount (entries ++ entries') (n + n') (w + w') (e + e') where
  notes := by rw [List.countP_append, h.notes, h'.notes]
  warnings := by rw [List.countP_append, h.warnings, h'.warnings]
  errors := by rw [List.countP_append, h.errors, h'.errors]

theorem countP_severity {severity : Severity} (h : ∀ d ∈ entries, d.severity = severity)
    (other : Severity) : entries.countP (·.severity = other) =
      if severity = other then entries.length else 0 := by
  split
  · rename_i heq
    exact List.countP_eq_length.mpr fun d hd => by simp [h d hd, heq]
  · rename_i hne
    exact List.countP_eq_zero.mpr fun d hd => by simp [h d hd, hne]

theorem Amount.of_notes (h : ∀ d ∈ entries, d.severity = .note) :
    Amount entries entries.length 0 0 :=
  ⟨countP_severity h _, countP_severity h _, countP_severity h _⟩

theorem Amount.of_warnings (h : ∀ d ∈ entries, d.severity = .warning) :
    Amount entries 0 entries.length 0 :=
  ⟨countP_severity h _, countP_severity h _, countP_severity h _⟩

theorem Amount.length_eq (h : Amount entries n w e) : entries.length = n + w + e := by
  rw [← h.notes, ← h.warnings, ← h.errors]
  clear h
  induction entries with
  | nil => rfl
  | cons d entries ih =>
      simp only [List.countP_cons, List.length_cons, decide_eq_true_eq]
      cases d.severity <;> simp <;> omega

end Diagnostic

open Diagnostic (Amount)

theorem Diagnostics.reportAll_eq (d : Diagnostics) (entries : List Diagnostic) :
    reportAll d entries =
      ⟨d.entries ++ entries.toArray, d.notes + entries.countP (·.severity = .note),
        d.warnings + entries.countP (·.severity = .warning),
        d.errors + entries.countP (·.severity = .error), d.fatals⟩ := by
  induction entries generalizing d with
  | nil => simp [reportAll]
  | cons entry entries ih =>
      have hstep : reportAll d (entry :: entries) = reportAll (d.report entry) entries := rfl
      rw [hstep, ih]
      cases hseverity : entry.severity <;>
        simp [Diagnostics.report, hseverity] <;> omega

theorem CountingSink.reportAll_eq (sink : CountingSink) (entries : List Diagnostic) :
    reportAll sink entries =
      ⟨reportAll sink.inner entries, sink.warnings + entries.countP (·.severity = .warning),
        sink.errors + entries.countP (·.severity = .error)⟩ := by
  induction entries generalizing sink with
  | nil => simp [reportAll]
  | cons entry entries ih =>
      have hstep : reportAll sink (entry :: entries) = reportAll (sink.report entry) entries := rfl
      have hinner : reportAll (sink.inner.report entry) entries =
          reportAll sink.inner (entry :: entries) := rfl
      rw [hstep, ih]
      cases hseverity : entry.severity <;>
        simp [CountingSink.report, hseverity, hinner] <;> omega

theorem DiagnosticSink.reportAll_append {σ : Type} [DiagnosticSink σ] (sink : σ)
    (entries entries' : List Diagnostic) :
    reportAll sink (entries ++ entries') = reportAll (reportAll sink entries) entries' :=
  List.foldl_append

variable {g : Grammar}

theorem Unused.amount_reports (u : Unused) :
    Amount u.reports 0 (u.terminals.length + u.nonterminals.length) 0 := by
  have h : ∀ d ∈ u.reports, d.severity = .warning := by
    simp only [reports, List.mem_append, List.mem_map]
    rintro d (⟨t, -, rfl⟩ | ⟨n, -, rfl⟩) <;> rfl
  simpa [reports] using Amount.of_warnings h

theorem Config.amount_closingReports (config : Config) (unreduced : List ProductionId)
    (counts : ConflictCounts) :
    Amount (config.closingReports unreduced counts) 0
      (if config.quiet then 0 else unreduced.length)
      (if config.expectedConflicts < counts.conflicts then 1 else 0) := by
  have hunreduced : Amount (if config.quiet then [] else unreduced.map .unreduced) 0
      (if config.quiet then 0 else unreduced.length) 0 := by
    split
    · exact .nil
    · have h : ∀ d ∈ unreduced.map Diagnostic.unreduced, d.severity = .warning := by
        simp only [List.mem_map]
        rintro d ⟨p, -, rfl⟩
        rfl
      simpa using Amount.of_warnings h
  have hbudget : Amount (if config.expectedConflicts < counts.conflicts then
      [.tooManyConflicts config.expectedConflicts counts.conflicts] else []) 0 0
      (if config.expectedConflicts < counts.conflicts then 1 else 0) := by
    split
    · exact ⟨rfl, rfl, rfl⟩
    · exact .nil
  simpa [closingReports] using hunreduced.append hbudget

namespace State

variable {q : State} {completed : List Item}

theorem severity_of_resolved (f : Filling) (state : StateId) :
    ∀ d ∈ f.resolved state, d.severity = .note := by
  simp only [Filling.resolved, List.mem_filterMap]
  rintro d ⟨⟨t, insertion⟩, -, h⟩
  cases insertion <;> cases h
  rfl

theorem severity_of_reduceReduceConflicts (q : State) (completed : List Item) :
    ∀ d ∈ q.reduceReduceConflicts completed, d.severity = .warning := by
  simp only [reduceReduceConflicts, List.mem_filterMap]
  rintro d ⟨⟨x, y⟩, -, h⟩
  split at h
  · cases h
  · cases h
    rfl

theorem severity_of_shiftReduceConflict {t : TerminalId} {p : ProductionId} {d : Diagnostic}
    (h : q.shiftReduceConflict g completed t p = .ok d) : d.severity = .warning := by
  unfold shiftReduceConflict at h
  split at h
  · cases h
  · simp only [bind, Except.bind, pure, Except.pure] at h
    split at h
    · cases h
    · cases h
      rfl

theorem amount_shiftReduceConflicts {meetings : List (TerminalId × ProductionId)}
    (h : (q.shiftReduceConflicts g completed meetings).outcome = .ok ()) :
    Amount (q.shiftReduceConflicts g completed meetings).state 0 meetings.length 0 := by
  induction meetings with
  | nil => exact .nil
  | cons meeting meetings ih =>
      unfold shiftReduceConflicts at h ⊢
      rcases hreport : q.shiftReduceConflict g completed meeting.1 meeting.2 with e | d
      · rw [hreport] at h
        cases h
      · rw [hreport] at h
        have hfirst : Amount [d] 0 1 0 :=
          Amount.of_warnings
            (List.forall_mem_singleton.mpr (severity_of_shiftReduceConflict hreport))
        have hall := hfirst.append (ih h)
        simpa [Nat.add_comm] using hall

/-- A state makes a note for each meeting that precedence settles and a warning for each of its
conflicts. -/
theorem amount_tabulate {row : ActionRow} {gotos : GotoRow} {counts : ConflictCounts}
    {reports : List Diagnostic} (h : q.tabulate g = ⟨.ok (row, gotos, counts), reports⟩) :
    Amount reports counts.resolved counts.conflicts 0 := by
  unfold tabulate at h
  split at h
  · cases h
  · rename_i completed hcompleted
    split at h
    · cases h
    · rename_i filling hfill
      simp only at h
      split at h
      · cases h
      · rename_i hshift
        cases h
        have hnotes := Amount.of_notes (severity_of_resolved filling q.id)
        have hwarnings := Amount.of_warnings (severity_of_reduceReduceConflicts q completed)
        have hall := (hnotes.append hwarnings).append (amount_shiftReduceConflicts hshift)
        simpa using hall

end State

namespace Tables

theorem amount_addStates {σ : Type} [DiagnosticSink σ] {states : List State}
    {tables tables' : Tables} {sink sink' : σ}
    (h : addStates g tables sink states = ⟨.ok tables', sink'⟩) :
    ∃ counts reports, sink' = reportAll sink reports ∧ tables'.counts = tables.counts.add counts ∧
      Amount reports counts.resolved counts.conflicts 0 := by
  induction states generalizing tables sink with
  | nil =>
      cases h
      exact ⟨{}, [], rfl, rfl, .nil⟩
  | cons q states ih =>
      unfold addStates at h
      split at h
      · cases h
      · rename_i row gotos counts reports htabulate
        obtain ⟨counts', reports', rfl, hcounts, hamount⟩ := ih h
        refine ⟨counts.add counts', reports ++ reports', ?_, ?_, ?_⟩
        · rw [DiagnosticSink.reportAll_append]
        · rw [hcounts, ConflictCounts.add_assoc]
        · exact (State.amount_tabulate htabulate).append hamount

theorem amount_fill {σ : Type} [DiagnosticSink σ] {a : Automaton} {tables : Tables} {sink sink' : σ}
    (h : fill g a sink = ⟨.ok tables, sink'⟩) :
    ∃ reports, sink' = reportAll sink reports ∧
      Amount reports tables.counts.resolved tables.counts.conflicts 0 := by
  obtain ⟨counts, reports, hsink, hcounts, hamount⟩ := amount_addStates h
  rw [empty, ConflictCounts.zero_add] at hcounts
  exact ⟨reports, hsink, hcounts ▸ hamount⟩

end Tables

theorem Grammar.checkUnused_snd {σ : Type} [DiagnosticSink σ] (g : Grammar) (quiet : Bool)
    (sink : σ) :
    (g.checkUnused quiet sink).2 = reportAll sink (if quiet then [] else g.unused.reports) := by
  unfold checkUnused
  split <;> rfl

/-- Two generations came to the same tables and found the same to report. -/
structure Generated.Agrees (generated generated' : Generated) : Prop where
  automaton : generated'.automaton = generated.automaton
  actions : generated'.actions = generated.actions
  gotos : generated'.gotos = generated.gotos
  counts : generated'.summary.counts = generated.summary.counts
  unusedTerminals : generated'.summary.unusedTerminals = generated.summary.unusedTerminals
  unusedNonterminals : generated'.summary.unusedNonterminals = generated.summary.unusedNonterminals
  unreduced : generated'.summary.unreduced = generated.summary.unreduced

namespace Config

variable {config : Config} {generated : Generated}

theorem amount_run {counting counting' : CountingSink}
    (h : config.run g counting = ⟨.ok generated, counting'⟩) :
    ∃ reports, counting' = reportAll counting reports ∧
      Amount reports generated.summary.counts.resolved
        (generated.summary.counts.conflicts + if config.quiet then 0 else
          generated.summary.unusedTerminals.length + generated.summary.unusedNonterminals.length +
            generated.summary.unreduced.length)
        (if config.expectedConflicts < generated.summary.counts.conflicts then 1 else 0) := by
  obtain ⟨tables, reported, -, htables, hyields, rfl, -, -⟩ := run_eq_ok h
  obtain ⟨reports, rfl, hamount⟩ := Tables.amount_fill htables
  have hunused : Amount (if config.quiet then [] else g.unused.reports) 0
      (if config.quiet then 0 else g.unused.terminals.length + g.unused.nonterminals.length) 0 := by
    split
    · exact .nil
    · exact g.unused.amount_reports
  have hall := (hunused.append hamount).append
    (config.amount_closingReports generated.summary.unreduced tables.counts)
  refine ⟨(if config.quiet then [] else g.unused.reports) ++ reports ++
    config.closingReports generated.summary.unreduced tables.counts, ?_, ?_⟩
  · rw [Grammar.checkUnused_snd, ← DiagnosticSink.reportAll_append,
      ← DiagnosticSink.reportAll_append, List.append_assoc]
  · rw [hyields.counts, hyields.unusedTerminals, hyields.unusedNonterminals]
    convert hall using 1
    · omega
    · split <;> omega
    · omega

/-- The numbers of the sink, of the summary and of the budget agree. -/
structure Accounts (config : Config) (generated : Generated) (sink : Diagnostics) : Prop where
  notes : sink.notes = generated.summary.counts.resolved
  warnings : sink.warnings = generated.summary.counts.conflicts + if config.quiet then 0 else
    generated.summary.unusedTerminals.length + generated.summary.unusedNonterminals.length +
      generated.summary.unreduced.length
  errors : sink.errors =
    if config.expectedConflicts < generated.summary.counts.conflicts then 1 else 0
  fatals : sink.fatals = 0
  size : sink.size = sink.notes + sink.warnings + sink.errors
  summaryErrors : generated.summary.errors = sink.errors
  summaryWarnings : generated.summary.warnings = sink.warnings
  isEmittable : generated.isEmittable = true ↔
    generated.summary.counts.conflicts ≤ config.expectedConflicts

/-- The books of a finished generation are in order, whoever keeps them; and no number of expected
conflicts and no silence about warnings changes what is generated. -/
theorem accounts_of_generate {sink : Diagnostics}
    (h : config.generate g ∅ = ⟨.ok generated, sink⟩) :
    config.Accounts generated sink ∧
      ∀ config' : Config, config'.compact = config.compact →
        ∃ generated' sink', config'.generate g ∅ = ⟨.ok generated', sink'⟩ ∧
          generated.Agrees generated' := by
  constructor
  · obtain ⟨counting, hrun, rfl⟩ := exists_run_of_generate h
    obtain ⟨-, -, -, -, -, -, herrors, hwarnings⟩ := run_eq_ok hrun
    obtain ⟨reports, hcounting, hamount⟩ := amount_run hrun
    rw [CountingSink.reportAll_eq, Diagnostics.reportAll_eq, hamount.notes, hamount.warnings,
      hamount.errors] at hcounting
    subst hcounting
    refine ⟨Nat.zero_add _, Nat.zero_add _, Nat.zero_add _, rfl, ?_, herrors, hwarnings, ?_⟩
    · have hlength := hamount.length_eq
      simpa [Diagnostics.size, EmptyCollection.emptyCollection, Diagnostics.empty] using hlength
    · have herror := herrors.trans (Nat.zero_add _)
      rw [Generated.isEmittable, herror, beq_iff_eq]
      split <;> omega
  · intro config' hcompact
    obtain ⟨tables, reported, hbuild, htables, hyields⟩ := generate_eq_ok h
    obtain ⟨generated', sink', hgenerate, hautomaton, hyields'⟩ :=
      exists_generate_of_fill hbuild htables config' ∅
    have hactions : generated'.actions = generated.actions := by
      rw [hyields'.actions, hyields.actions, hcompact]
    refine ⟨generated', sink', hgenerate, hautomaton, hactions, ?_, ?_, ?_, ?_, ?_⟩
    · rw [hyields'.gotos, hyields.gotos]
    · rw [hyields'.counts, hyields.counts]
    · rw [hyields'.unusedTerminals, hyields.unusedTerminals]
    · rw [hyields'.unusedNonterminals, hyields.unusedNonterminals]
    · rw [hyields'.unreduced, hyields.unreduced, hactions]

/-- Two conflicts are one too many for a budget of one, and three meetings are only noted. -/
theorem accounts_of_generate_sumsAndProducts :
    ∃ g generated sink, Grammar.define Tables.sumsAndProducts = .ok g ∧
      generate { expectedConflicts := 1 } g ∅ = ⟨.ok generated, sink⟩ ∧
      Accounts { expectedConflicts := 1 } generated sink ∧
      sink.notes = 3 ∧ sink.errors = 1 ∧ generated.isEmittable = false ∧
      ∃ generated' sink', generate { expectedConflicts := 2, quiet := true } g ∅ =
          ⟨.ok generated', sink'⟩ ∧
        generated.Agrees generated' := by
  have hrun : (tablesOf { expectedConflicts := 1 } Tables.sumsAndProducts).any
      (fun (_, generated, _) => generated.summary.counts = ⟨2, 4, 1, 3⟩) = true := by
    decide +kernel
  obtain ⟨⟨g, generated, tables⟩, htables, hcounts⟩ := (Option.any_eq_true _ _).mp hrun
  rw [decide_eq_true_eq] at hcounts
  obtain ⟨hg, ⟨sink, hgenerate⟩, -⟩ := tablesOf_eq_some htables
  obtain ⟨haccounts, hagrees⟩ := accounts_of_generate hgenerate
  refine ⟨g, generated, sink, hg, hgenerate, haccounts, ?_, ?_, ?_, hagrees _ rfl⟩
  · rw [haccounts.notes, hcounts]
  · rw [haccounts.errors, hcounts]
    rfl
  · rw [← Bool.not_eq_true, haccounts.isEmittable, hcounts]
    decide

end Config

end Lalr
