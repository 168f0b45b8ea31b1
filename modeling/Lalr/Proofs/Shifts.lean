import Lalr.Proofs.Compaction

namespace Lalr

theorem Grammar.ValidItem.derives {g : Grammar} (hg : g.WellFormed) {γ : List Symbol} {c : ItemCore}
    (h : g.ValidItem γ c) :
    ∃ rest, g.Derives [.nonterminal g.start] (γ ++ (g.after c ++ rest)) := by
  induction h with
  | start =>
      refine ⟨[], ?_⟩
      rw [hg.start_rule.after]
      exact .refl _
  | @predict γ behind rhs c n p _ hc hp ih =>
      obtain ⟨rest, hrest⟩ := ih
      refine ⟨behind ++ rest, hrest.trans ?_⟩
      rw [hc, hp.after]
      exact (hp.derives_cons (behind ++ rest)).append_left γ
  | advance _ hc ih =>
      obtain ⟨rest, hrest⟩ := ih
      refine ⟨rest, ?_⟩
      rw [after_advance hc]
      simpa [hc] using hrest

namespace Parser

variable {g : Grammar} {a : Automaton} {tables : PackedTables}

def Event.isShift : Event → Bool
  | .shift _ => true
  | _ => false

/-- The tokens that are shifted in the course of a trace. -/
def shifted (tokens : List TerminalId) (trace : List Event) : List TerminalId :=
  (tokens ++ [TerminalId.eof]).take (trace.countP Event.isShift)

/-- At some round the parser has shifted the tokens `w`, and no others. -/
def Shifts (g : Grammar) (tables : PackedTables) (tokens w : List TerminalId) : Prop :=
  ∃ events c, Reaches g tables (start tokens) events c ∧ shifted tokens events = w

theorem step_input {c d : Configuration} {event : Event} (h : step g tables c = .next event d) :
    (∃ s t, event = .shift s ∧ c.input = t :: d.input) ∨
      ∃ p, event = .reduce p ∧ d.input = c.input := by
  unfold step at h
  split at h
  · cases h
  · rename_i t rest hinput
    simp only at h
    split at h
    · cases h
    · cases h
    · cases h
      exact .inl ⟨_, t, rfl, hinput⟩
    · rename_i p haction
      split at h
      · split at h <;> cases h
      · unfold reduce at h
        split at h
        · cases h
        · split at h
          · cases h
          · simp only at h
            split at h
            · cases h
            · cases h
            · cases h
              exact .inr ⟨p, rfl, rfl⟩

theorem Reaches.input_eq {c d : Configuration} {events : List Event}
    (h : Reaches g tables c events d) :
    c.input.take (events.countP Event.isShift) ++ d.input = c.input := by
  induction h with
  | refl c => rfl
  | @step c d e event events hstep _ ih =>
      rcases step_input hstep with ⟨s, t, rfl, hinput⟩ | ⟨p, rfl, hinput⟩
      · rw [List.countP_cons_of_pos rfl, hinput, List.take_succ_cons, List.cons_append, ih]
      · rw [List.countP_cons_of_neg (by simp [Event.isShift]), ← hinput, ih]

theorem Reaches.shifted_append {tokens : List TerminalId} {events : List Event} {c : Configuration}
    (h : Reaches g tables (start tokens) events c) :
    shifted tokens events ++ c.input = tokens ++ [.eof] :=
  h.input_eq

theorem countP_isShift_of_reduces {events : List Event}
    (h : ∀ event ∈ events, ∃ p, event = .reduce p) : events.countP Event.isShift = 0 := by
  rw [List.countP_eq_zero]
  intro event hevent
  obtain ⟨p, rfl⟩ := h event hevent
  simp [Event.isShift]

theorem step_failed_event {c : Configuration} {event : Option Event} {failure : Failure}
    (h : step g tables c = .failed event failure) : ∀ e ∈ event, e.isShift = false := by
  unfold step at h
  split at h
  · cases h
    simp
  · simp only at h
    split at h
    · cases h
      simp
    · cases h
      simp
    · cases h
    · rename_i p haction
      split at h
      · split at h
        · cases h
          simp [Event.isShift]
        · cases h
      · rcases reduce_cases g tables c p with ⟨d, hreduce⟩ | ⟨failure', hreduce⟩
        · rw [hreduce] at h
          cases h
        · rw [hreduce] at h
          cases h
          simp [Event.isShift]

theorem exists_reaches_of_run (rounds : Nat) (c : Configuration) (before : List Event) :
    ∃ events last d, Reaches g tables c events d ∧ last.countP Event.isShift = 0 ∧
      (run g tables rounds c before).2 = before.reverse ++ events ++ last := by
  induction rounds generalizing c before with
  | zero => exact ⟨[], [], c, .refl c, rfl, by simp [run]⟩
  | succ rounds ih =>
      rw [run]
      split
      · rename_i event d hstep
        obtain ⟨events, last, e, hreaches, hlast, htrace⟩ := ih d (event :: before)
        exact ⟨event :: events, last, e, .step hstep hreaches, hlast, by simp [htrace]⟩
      · exact ⟨[], [.accept], c, .refl c, rfl, by simp⟩
      · rename_i event failure hstep
        refine ⟨[], event.toList, c, .refl c, ?_, ?_⟩
        · rw [List.countP_eq_zero]
          intro e he
          simp [step_failed_event hstep e (Option.mem_toList.mp he)]
        · cases event <;> simp

theorem shifts_of_run (rounds : Nat) (tokens : List TerminalId) :
    Shifts g tables tokens (shifted tokens (run g tables rounds (start tokens) []).2) := by
  obtain ⟨events, last, c, hreaches, hlast, htrace⟩ :=
    @exists_reaches_of_run g tables rounds (start tokens) []
  refine ⟨events, c, hreaches, ?_⟩
  rw [htrace, shifted, shifted]
  simp [List.countP_append, hlast]

theorem Shifts.exists_derives (hg : g.WellFormed) (ha : a.Charted g) (hd : tables.Drives g a)
    {tokens w : List TerminalId} (h : Shifts g tables tokens w) :
    ∃ β, g.Derives [.nonterminal g.start] (w.map .terminal ++ β) := by
  obtain ⟨events, c, hreaches, rfl⟩ := h
  obtain ⟨γ, hparsed⟩ := (parsed_start g a tokens).reaches hg ha hd hreaches
  obtain ⟨q, hq, hholds⟩ := hparsed.stacked.exists_state ha hd.startState
  obtain ⟨core, hcore⟩ := List.exists_mem_of_ne_nil _ (ha.occupied hq)
  obtain ⟨rest, hrest⟩ := ((hholds core).mp hcore).derives hg
  have hleaves : ParseTree.leavesAll (trees c.stack) = shifted tokens events :=
    List.append_cancel_right (hparsed.leaves.trans hreaches.shifted_append.symm)
  have hγ := hparsed.forest.derives
  rw [hleaves] at hγ
  exact ⟨_, hrest.trans (hγ.append_right _)⟩

/-- The tokens that the parser has shifted at any round begin a string that the start symbol
derives, be the tables compacted or not. -/
theorem shifted_viable {declarations : List Declaration} {g : Grammar}
    (hg : Grammar.define declarations = .ok g) {config : Config} {sink reports : Diagnostics}
    {generated : Generated} (h : config.generate g sink = ⟨.ok generated, reports⟩) :
    ∃ tables, generated.pack = .ok tables ∧ ∀ tokens,
      (∀ events c, Reaches g tables (start tokens) events c →
        shifted tokens events ++ c.input = tokens ++ [.eof] ∧
        ∃ β, g.Derives [.nonterminal g.start] ((shifted tokens events).map .terminal ++ β)) ∧
      ∀ rounds, ∃ β, g.Derives [.nonterminal g.start]
        ((shifted tokens (run g tables rounds (start tokens) []).2).map .terminal ++ β) := by
  have hwell := Grammar.wellFormed_of_define hg
  obtain ⟨tables, dense, hpack, hm, -⟩ := Config.exists_pack hwell h
  have hderives {tokens w} (hw : Shifts g tables tokens w) :=
    hw.exists_derives hwell hm.exact.toCharted hm.toDrives
  refine ⟨tables, hpack, fun tokens => ⟨fun events c hreaches => ?_, fun rounds => ?_⟩⟩
  · exact ⟨hreaches.shifted_append, hderives ⟨events, c, hreaches, rfl⟩⟩
  · exact hderives (shifts_of_run rounds tokens)

theorem shifted_viable_sums :
    ∃ g tables, ∃ generated : Generated, Grammar.define sums = .ok g ∧
      generated.pack = .ok tables ∧ (∃ row ∈ generated.actions.rows, row.default ≠ none) ∧
      shifted [.nth 2, .nth 3, .nth 3]
        (run g tables 20 (start [.nth 2, .nth 3, .nth 3]) []).2 = [.nth 2, .nth 3] ∧
      ∃ β, g.Derives [.nonterminal g.start] (.terminal (.nth 2) :: .terminal (.nth 3) :: β) := by
  have hrun : (Config.tablesOf { compact := true } sums).any (fun (g, generated, tables) =>
      generated.actions.rows.any (·.default ≠ none) ∧
        shifted [.nth 2, .nth 3, .nth 3]
          (run g tables 20 (start [.nth 2, .nth 3, .nth 3]) []).2 = [.nth 2, .nth 3]) = true := by
    decide +kernel
  obtain ⟨⟨g, generated, tables⟩, htables, hchecks⟩ := (Option.any_eq_true _ _).mp hrun
  simp only [Array.any_eq_true', decide_eq_true_eq] at hchecks
  obtain ⟨hdefault, hshifted⟩ := hchecks
  obtain ⟨hg, ⟨reports, hgenerate⟩, hpack⟩ := Config.tablesOf_eq_some htables
  obtain ⟨tables', hpack', hall⟩ := shifted_viable hg hgenerate
  rw [hpack, Except.ok.injEq] at hpack'
  subst hpack'
  obtain ⟨β, hβ⟩ := (hall [.nth 2, .nth 3, .nth 3]).2 20
  rw [hshifted] at hβ
  exact ⟨g, tables, generated, hg, hpack, hdefault, hshifted, β, hβ⟩

section Compacted

variable {plain compacted : PackedTables} {config config' : Config} {dense : Tables}

/-- What the compacted parser does after a syntax error of the plain one does not count: these are
reductions only. -/
theorem shifts_compacted_iff (hg : g.WellFormed) (hp : plain.MadeFrom g a config dense)
    (hplain : config.compact = false) (hc : compacted.MadeFrom g a config' dense)
    {tokens w : List TerminalId} : Shifts g compacted tokens w ↔ Shifts g plain tokens w := by
  constructor
  · rintro ⟨events, d, hreaches, rfl⟩
    rcases reaches_plain hg hp hplain hc hreaches .nil with ⟨hreaches', -⟩ |
      ⟨before, c, t, after, γ, rfl, hbefore, hγ, herror, hafter⟩
    · exact ⟨events, d, hreaches', rfl⟩
    · obtain ⟨hevents, -⟩ := reaches_after_error hg hp hc hγ herror hafter
      refine ⟨before, c, hbefore, ?_⟩
      rw [shifted, shifted, List.countP_append, countP_isShift_of_reduces hevents, Nat.add_zero]
  · rintro ⟨events, c, hreaches, rfl⟩
    exact ⟨events, c, (reaches_compacted hg hp hplain hc hreaches .nil).1, rfl⟩

/-- The compacted parser shifts the same tokens as the plain one.  They do the same until the plain
one stops with a syntax error; from there on the compacted one may reduce, but never shifts. -/
theorem shifts_compacted {declarations : List Declaration} {g : Grammar}
    (hg : Grammar.define declarations = .ok g) {config : Config} {sink reports : Diagnostics}
    {generated : Generated} (h : config.generate g sink = ⟨.ok generated, reports⟩) :
    ∃ plain compacted : Generated, ∃ plainTables compactedTables,
      (∃ reports', { config with compact := false }.generate g sink = ⟨.ok plain, reports'⟩) ∧
      (∃ reports', { config with compact := true }.generate g sink = ⟨.ok compacted, reports'⟩) ∧
      plain.pack = .ok plainTables ∧ compacted.pack = .ok compactedTables ∧
      ∀ tokens,
        (∀ w, Shifts g compactedTables tokens w ↔ Shifts g plainTables tokens w) ∧
        (∀ events c, Reaches g plainTables (start tokens) events c →
          Reaches g compactedTables (start tokens) events c ∧
          ∀ t q, step g plainTables c = .failed none (.syntaxError t q) →
            ∀ after d, Reaches g compactedTables c after d →
              (∀ event ∈ after, ∃ p, event = .reduce p) ∧ d.input = c.input) ∧
        ∀ events d, Reaches g compactedTables (start tokens) events d →
          Reaches g plainTables (start tokens) events d ∨
          ∃ before c t q after, events = before ++ after ∧
            Reaches g plainTables (start tokens) before c ∧
            step g plainTables c = .failed none (.syntaxError t q) ∧
            Reaches g compactedTables c after d := by
  have hwell := Grammar.wellFormed_of_define hg
  obtain ⟨dense, hmade⟩ := Config.exists_pack_compact hwell h
  obtain ⟨plain, plainTables, hplain, hpackPlain, hp, -⟩ := hmade false
  obtain ⟨compacted, compactedTables, hcompacted, hpackCompacted, hc, -⟩ := hmade true
  refine ⟨plain, compacted, plainTables, compactedTables, hplain, hcompacted, hpackPlain,
    hpackCompacted, fun tokens => ⟨fun w => ?_, fun events c hreaches => ?_,
    fun events d hreaches => ?_⟩⟩
  · exact shifts_compacted_iff hwell hp rfl hc
  · obtain ⟨hreaches', γ, hγ⟩ := reaches_compacted hwell hp rfl hc hreaches .nil
    refine ⟨hreaches', fun t q herror after d hafter => ?_⟩
    obtain ⟨hevents, -⟩ := reaches_after_error hwell hp hc hγ herror hafter
    have hinput := hafter.input_eq
    rw [countP_isShift_of_reduces hevents] at hinput
    exact ⟨hevents, hinput⟩
  · rcases reaches_plain hwell hp rfl hc hreaches .nil with ⟨hreaches', -⟩ |
      ⟨before, c, t, after, γ, hevents, hbefore, -, herror, hafter⟩
    · exact .inl hreaches'
    · exact .inr ⟨before, c, t, _, after, hevents, hbefore, herror, hafter⟩

/-- On `x x` the plain parser stops at the second token.  The compacted one reduces, and accepts
what it has shifted. -/
theorem shifts_compacted_single :
    ∃ g plain compacted, Grammar.define single = .ok g ∧
      (∃ generated reports, Config.generate {} g ∅ = ⟨.ok generated, reports⟩ ∧
        generated.pack = .ok plain) ∧
      (∃ generated reports, Config.generate { compact := true } g ∅ = ⟨.ok generated, reports⟩ ∧
        generated.pack = .ok compacted) ∧
      (run g plain 20 (start [.nth 2, .nth 2]) []).2 = [.shift (.nth 2)] ∧
      (run g compacted 20 (start [.nth 2, .nth 2]) []).2 =
        [.shift (.nth 2), .reduce (.nth 1), .accept] ∧
      ∀ w, Shifts g compacted [.nth 2, .nth 2] w ↔ Shifts g plain [.nth 2, .nth 2] w := by
  have hplain : (Config.tablesOf {} single).any (fun (g, _, tables) =>
      (run g tables 20 (start [.nth 2, .nth 2]) []).2 == [.shift (.nth 2)]) = true := by
    decide +kernel
  have hcompacted : (Config.tablesOf { compact := true } single).any (fun (g, _, tables) =>
      (run g tables 20 (start [.nth 2, .nth 2]) []).2 ==
        [.shift (.nth 2), .reduce (.nth 1), .accept]) = true := by
    decide +kernel
  obtain ⟨⟨g, generated, plain⟩, htables, hrun⟩ := (Option.any_eq_true _ _).mp hplain
  obtain ⟨⟨g', generated', compacted⟩, htables', hrun'⟩ := (Option.any_eq_true _ _).mp hcompacted
  obtain ⟨hg, ⟨reports, hgenerate⟩, hpack⟩ := Config.tablesOf_eq_some htables
  obtain ⟨hg', ⟨reports', hgenerate'⟩, hpack'⟩ := Config.tablesOf_eq_some htables'
  obtain rfl : g = g' := Except.ok.inj (hg.symm.trans hg')
  obtain ⟨made, made', tables, tables', ⟨reports₁, hmade⟩, ⟨reports₂, hmade'⟩, hpackMade,
    hpackMade', hall⟩ := shifts_compacted hg hgenerate
  obtain rfl : generated = made := by
    have hboth := hgenerate.symm.trans hmade
    cases hboth
    rfl
  obtain rfl : generated' = made' := by
    have hboth := hgenerate'.symm.trans hmade'
    cases hboth
    rfl
  obtain rfl : plain = tables := Except.ok.inj (hpack.symm.trans hpackMade)
  obtain rfl : compacted = tables' := Except.ok.inj (hpack'.symm.trans hpackMade')
  exact ⟨g, plain, compacted, hg, ⟨generated, reports, hgenerate, hpack⟩,
    ⟨generated', reports', hgenerate', hpack'⟩, beq_iff_eq.mp hrun, beq_iff_eq.mp hrun',
    (hall _).1⟩

end Compacted

end Parser

end Lalr
