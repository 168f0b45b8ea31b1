import Lalr.Proofs.Soundness

namespace Lalr.Parser

variable {g : Grammar} {a : Automaton} {tables : PackedTables} {γ : List Symbol}

theorem Stacked.ne_nil_of_start (hg : g.WellFormed) {stack : List Frame} (h : Stacked a γ stack)
    {item : ItemCore} (hitem : g.ValidItem γ item) (hp : item.production = .start)
    (hafter : g.after item = []) : stack ≠ [] := by
  obtain ⟨n, rhs, front, hrule, -, rfl, -⟩ := hitem.split hg
  rw [hp] at hrule
  obtain ⟨rfl, rfl⟩ := hg.start_rule.unique hrule
  have hdot : 1 ≤ item.dot := by
    have hdrop := hg.start_rule.after item.dot
    rw [← hp] at hdrop
    exact List.drop_eq_nil_iff.mp (hdrop.symm.trans hafter)
  intro hnil
  have hlength := h.length_eq
  simp only [hnil, List.length_nil, List.length_append, List.length_take,
    List.length_cons] at hlength
  omega

/-- A round fails only for want of input, or because the table has no action for the next token. -/
theorem Stacked.step_failed (hg : g.WellFormed) {config : Config} {dense : Tables}
    (hm : tables.MadeFrom g a config dense) {c : Configuration} (h : Stacked a γ c.stack)
    {event : Option Event} {failure : Failure}
    (hstep : step g tables c = .failed event failure) :
    failure = .endOfInput ∧ c.input = [] ∨
      ∃ t rest, c.input = t :: rest ∧ failure = .syntaxError t (top tables c.stack) ∧
        tables.action (top tables c.stack) t = .ok .error := by
  obtain ⟨q, hq, hholds⟩ := h.exists_state hm.exact.toCharted hm.startState
  obtain ⟨row, -, hrow, -⟩ := hm.rows hq
  unfold step at hstep
  split at hstep
  · rename_i hinput
    cases hstep
    exact .inl ⟨rfl, hinput⟩
  · rename_i t rest hinput
    simp only at hstep
    split at hstep
    · rename_i e haction
      rw [hm.action hrow] at haction
      cases haction
    · rename_i haction
      cases hstep
      exact .inr ⟨t, rest, hinput, rfl, haction⟩
    · cases hstep
    · rename_i p haction
      obtain ⟨item, hitem, rfl, hafter⟩ := hm.reduce hq haction
      have hvalid := hholds.validItem hitem
      split at hstep
      · rename_i hp
        rw [hm.startProduction] at hp
        split at hstep
        · rename_i hstack
          exact absurd hstack (h.ne_nil_of_start hg hvalid hp hafter)
        · cases hstep
      · rename_i hp
        rw [hm.startProduction] at hp
        obtain ⟨n, rhs, front, s, -, -, -, -, hreduce, -⟩ :=
          reduce_next hg hm.exact.toCharted hm.toDrives h hvalid hafter hp
        rw [hreduce] at hstep
        cases hstep

theorem run_failed {rounds : Nat} {c : Configuration} {before : List Event} {failure : Failure}
    (h : (run g tables rounds c before).1 = .failed failure) :
    failure = .stepLimit ∨ ∃ events d event, Reaches g tables c events d ∧
      step g tables d = .failed event failure := by
  induction rounds generalizing c before with
  | zero =>
      cases h
      exact .inl rfl
  | succ rounds ih =>
      rw [run] at h
      split at h
      · rename_i event d hstep
        rcases ih h with hlimit | ⟨events, e, last, hreaches, hfailed⟩
        · exact .inl hlimit
        · exact .inr ⟨event :: events, e, last, .step hstep hreaches, hfailed⟩
      · cases h
      · rename_i event failure' hstep
        cases h
        exact .inr ⟨[], c, event, .refl c, hstep⟩

/-- The generated parser never gets stuck in its tables: whatever it has done, a round that fails
finds that the input has ended or that the next token is not expected. -/
theorem failed_of_reaches {declarations : List Declaration} {g : Grammar}
    (hg : Grammar.define declarations = .ok g) {config : Config} {sink reports : Diagnostics}
    {generated : Generated} (h : config.generate g sink = ⟨.ok generated, reports⟩) :
    ∃ tables, generated.pack = .ok tables ∧ ∀ tokens,
      (∀ events c, Reaches g tables (start tokens) events c → ∀ event failure,
        step g tables c = .failed event failure →
          failure = .endOfInput ∧ c.input = [] ∨
            ∃ t rest, c.input = t :: rest ∧ failure = .syntaxError t (top tables c.stack)) ∧
      ∀ rounds failure, (run g tables rounds (start tokens) []).1 = .failed failure →
        failure = .stepLimit ∨ failure = .endOfInput ∨ ∃ t q, failure = .syntaxError t q := by
  have hwell := Grammar.wellFormed_of_define hg
  obtain ⟨tables, dense, hpack, hmade, -⟩ := Config.exists_pack hwell h
  have hfailed : ∀ {tokens events c}, Reaches g tables (start tokens) events c →
      ∀ {event failure}, step g tables c = .failed event failure →
        failure = .endOfInput ∧ c.input = [] ∨
          ∃ t rest, c.input = t :: rest ∧ failure = .syntaxError t (top tables c.stack) := by
    intro tokens events c hreaches event failure hstep
    obtain ⟨γ, hγ⟩ := Stacked.of_reaches hwell hmade.exact.toCharted hmade.toDrives hreaches .nil
    rcases hγ.step_failed hwell hmade hstep with hend | ⟨t, rest, hinput, herror, -⟩
    · exact .inl hend
    · exact .inr ⟨t, rest, hinput, herror⟩
  refine ⟨tables, hpack, fun tokens => ⟨fun _ _ hreaches _ _ => hfailed hreaches, ?_⟩⟩
  intro rounds failure hrun
  rcases run_failed hrun with hlimit | ⟨events, d, event, hreaches, hstep⟩
  · exact .inl hlimit
  · rcases hfailed hreaches hstep with ⟨hend, -⟩ | ⟨t, rest, -, herror⟩
    · exact .inr (.inl hend)
    · exact .inr (.inr ⟨t, _, herror⟩)

/-- The second `"+"` of `x + +` is a syntax error, although rows are compacted and reduce on tokens
that cannot follow. -/
theorem failed_of_reaches_sums :
    ∃ g tables t q, ∃ generated : Generated, Grammar.define sums = .ok g ∧
      generated.pack = .ok tables ∧ (∃ row ∈ generated.actions.rows, row.default ≠ none) ∧
      (run g tables 20 (start [.nth 2, .nth 3, .nth 3]) []).1 = .failed (.syntaxError t q) := by
  have hrun : (Config.tablesOf { compact := true } sums).any (fun (g, generated, tables) =>
      generated.actions.rows.any (·.default ≠ none) ∧
        ∃ failure ∈ (run g tables 20 (start [.nth 2, .nth 3, .nth 3]) []).1.failure?,
          failure ≠ .stepLimit ∧ failure ≠ .endOfInput) = true := by
    decide +kernel
  obtain ⟨⟨g, generated, tables⟩, htables, hchecks⟩ := (Option.any_eq_true _ _).mp hrun
  simp only [Array.any_eq_true', decide_eq_true_eq] at hchecks
  obtain ⟨hdefault, failure, hfailure, hlimit, hend⟩ := hchecks
  obtain ⟨hg, ⟨reports, hgenerate⟩, hpack⟩ := Config.tablesOf_eq_some htables
  obtain ⟨tables', hpack', hall⟩ := failed_of_reaches hg hgenerate
  rw [hpack, Except.ok.injEq] at hpack'
  subst hpack'
  have hfailed : (run g tables 20 (start [.nth 2, .nth 3, .nth 3]) []).1 = .failed failure := by
    rcases hrun : (run g tables 20 (start [.nth 2, .nth 3, .nth 3]) []).1 with tree | failure' <;>
      rw [hrun] at hfailure <;> cases hfailure
    rfl
  obtain ⟨t, q, rfl⟩ :=
    (((hall _).2 20 failure hfailed).resolve_left hlimit).resolve_left hend
  exact ⟨g, tables, t, q, generated, hg, hpack, hdefault, hfailed⟩

end Lalr.Parser
