import Lalr.Table.Filling
import Lalr.Proofs.IdentSets
import Lalr.Proofs.Lookaheads

namespace Lalr

def Insertion.IsMeeting : Insertion → Prop
  | .placed => False
  | .reduceReduce => False
  | .resolved _ _ => True
  | .unresolved _ => True

namespace ActionRow

variable {g : Grammar}

theorem settle_ok {t : TerminalId} {next : StateId} {p : ProductionId} {action : Action}
    {insertion : Insertion} (h : settle g t next p = .ok (action, insertion)) :
    (action = .shift next ∨ action = .reduce p ∨ action = .nonassoc) ∧ insertion.IsMeeting := by
  unfold settle at h
  split at h
  · cases h
  · split at h
    all_goals
      cases h
      simp [Insertion.IsMeeting]

/-- A cell after a proposal: it is not free, and what it holds was there before or was proposed,
unless precedence asks for an error.  Reductions stay reductions and shifts stay shifts where they
do not meet. -/
theorem meet_ok {state : StateId} {t : TerminalId} {current proposed action : Action}
    {insertion : Insertion} (h : meet g state t current proposed = .ok (action, insertion)) :
    action ≠ .error ∧ (action = current ∨ action = proposed ∨ action = .nonassoc) ∧
      (¬ insertion.IsMeeting →
        (∀ s, current = .shift s ∨ proposed = .shift s → action = .shift s) ∧
        ∀ p, current = .reduce p ∨ proposed = .reduce p → ∃ p', action = .reduce p') := by
  unfold meet at h
  split at h
  · cases h
  · cases h
  · cases h
    cases proposed <;> simp_all
  · split at h
    · cases h
      simp_all
    · cases h
      split <;> simp_all
  · obtain ⟨hcases, hmeeting⟩ := settle_ok h
    refine ⟨?_, ?_, fun hnot => absurd hmeeting hnot⟩
    · rintro rfl
      simp at hcases
    · rcases hcases with rfl | rfl | rfl <;> simp
  · obtain ⟨hcases, hmeeting⟩ := settle_ok h
    refine ⟨?_, ?_, fun hnot => absurd hmeeting hnot⟩
    · rintro rfl
      simp at hcases
    · rcases hcases with rfl | rfl | rfl <;> simp
  · split at h
    · cases h
      simp_all
    · cases h
  · cases h

def put (row : ActionRow) (t : TerminalId) (action : Action) : ActionRow :=
  { row with cells := row.cells.setIfInBounds t.index action }

theorem insert_of_meet {state : StateId} {row : ActionRow} {t : TerminalId}
    {current proposed action : Action} {insertion : Insertion}
    (hcurrent : row.get? t = some current)
    (h : meet g state t current proposed = .ok (action, insertion)) :
    row.insert g state t proposed = .succeed insertion (row.put t action) := by
  rw [get?] at hcurrent
  simp only [insert, hcurrent, h, put]

theorem insert_ok {state : StateId} {row row' : ActionRow} {t : TerminalId} {proposed : Action}
    {insertion : Insertion} (h : row.insert g state t proposed = ⟨.ok insertion, row'⟩) :
    row'.default = row.default ∧ row'.cells.size = row.cells.size ∧
      (∀ u, u ≠ t → row'.get? u = row.get? u) ∧
      ∃ current action, row.get? t = some current ∧ row'.get? t = some action ∧
        meet g state t current proposed = .ok (action, insertion) := by
  unfold insert at h
  split at h
  · cases h
  · rename_i current hcurrent
    split at h
    · cases h
    · rename_i action insertion' hmeet
      cases h
      refine ⟨rfl, by simp, ?_, current, action, hcurrent, ?_, hmeet⟩
      · intro u hu
        have hne : t.index ≠ u.index := fun e => hu (Ident.ext_index e).symm
        simp only [get?, Array.getElem?_setIfInBounds_ne hne]
      · have hlt := (Array.getElem?_eq_some_iff.mp hcurrent).1
        simp [get?, hlt]

end ActionRow

namespace Filling

variable {g : Grammar}

/-- No shift has met a reduction. -/
def Peaceful (f : Filling) : Prop :=
  ∀ x ∈ f.insertions, ¬ x.2.IsMeeting

structure Reflects (g : Grammar) (made : List Proposal) (f : Filling) : Prop where
  size : f.actions.cells.size = g.terminals.size
  gotos_size : f.gotos.size = g.nonterminals.size
  default : f.actions.default = none
  made_of_cell : ∀ {t action}, f.actions.get? t = some action →
    action = .error ∨ action = .nonassoc ∨ .action t action ∈ made
  cell_of_made : ∀ {t action}, .action t action ∈ made →
    ∃ current, f.actions.get? t = some current ∧ current ≠ .error
  shift : f.Peaceful → ∀ {t s}, .action t (.shift s) ∈ made →
    f.actions.get? t = some (.shift s)
  reduce : f.Peaceful → ∀ {t p}, .action t (.reduce p) ∈ made →
    ∃ p', f.actions.get? t = some (.reduce p')
  made_of_goto : ∀ {n : NonterminalId} {s : StateId}, f.gotos[n.index]? = some (some s) →
    .goto n s ∈ made
  goto_of_made : ∀ {n : NonterminalId} {s : StateId}, .goto n s ∈ made →
    ∃ s' : StateId, f.gotos[n.index]? = some (some s')

theorem reflects_blank : (blank g).Reflects g [] := by
  constructor
  · simp [blank, ActionRow.blank]
  · simp [blank]
  · rfl
  · intro t action h
    simp only [blank, ActionRow.blank, ActionRow.get?, Array.getElem?_replicate] at h
    split at h
    · exact .inl (Option.some.inj h).symm
    · cases h
  · simp
  · simp
  · simp
  · intro n s h
    simp only [blank, Array.getElem?_replicate] at h
    split at h <;> simp at h
  · simp

theorem Reflects.insert {made : List Proposal} {f : Filling} (hf : f.Reflects g made)
    {state : StateId} {t : TerminalId} {proposed : Action} {insertion : Insertion}
    {row : ActionRow} (h : f.actions.insert g state t proposed = ⟨.ok insertion, row⟩) :
    Reflects g (made ++ [.action t proposed])
      { f with actions := row, insertions := f.insertions.push (t, insertion) } := by
  obtain ⟨hdefault, hsize, hother, current, action, hcurrent, haction, hmeet⟩ :=
    ActionRow.insert_ok h
  obtain ⟨hne, hcases, hpeace⟩ := ActionRow.meet_ok hmeet
  have hold : ∀ {u : TerminalId} {b : Action}, .action u b ∈ made ++ [.action t proposed] →
      .action u b ∈ made ∨ u = t ∧ b = proposed := by
    intro u b hb
    simpa using hb
  have hpeaceful : Peaceful { f with
      actions := row, insertions := f.insertions.push (t, insertion) } →
        f.Peaceful ∧ ¬ insertion.IsMeeting := by
    intro hall
    exact ⟨fun x hx => hall x (Array.mem_push_of_mem _ hx), hall _ Array.mem_push_self⟩
  refine ⟨hsize.trans hf.size, hf.gotos_size, hdefault.trans hf.default, ?_, ?_, ?_, ?_, ?_, ?_⟩
  · intro u b hb
    by_cases hu : u = t
    · subst hu
      rw [haction, Option.some.injEq] at hb
      subst hb
      rcases hcases with rfl | rfl | rfl
      · exact (hf.made_of_cell hcurrent).imp id fun h => h.imp id (List.mem_append_left _)
      · exact .inr (.inr (by simp))
      · exact .inr (.inl rfl)
    · rw [hother u hu] at hb
      exact (hf.made_of_cell hb).imp id fun h => h.imp id (List.mem_append_left _)
  · intro u b hb
    by_cases hu : u = t
    · exact ⟨action, hu ▸ haction, hne⟩
    · rw [hother u hu]
      exact hf.cell_of_made ((hold hb).resolve_right fun e => hu e.1)
  · intro hafter u s hs
    obtain ⟨hall, hmeeting⟩ := hpeaceful hafter
    by_cases hu : u = t
    · subst hu
      refine haction.trans (congrArg some ((hpeace hmeeting).1 s ?_))
      rcases hold hs with hs | ⟨-, hs⟩
      · rw [hf.shift hall hs, Option.some.injEq] at hcurrent
        exact .inl hcurrent.symm
      · exact .inr hs.symm
    · rw [hother u hu]
      exact hf.shift hall ((hold hs).resolve_right fun e => hu e.1)
  · intro hafter u p hp
    obtain ⟨hall, hmeeting⟩ := hpeaceful hafter
    by_cases hu : u = t
    · subst hu
      rcases hold hp with hp | ⟨-, hp⟩
      · obtain ⟨p', hp'⟩ := hf.reduce hall hp
        rw [hp', Option.some.injEq] at hcurrent
        obtain ⟨p'', rfl⟩ := (hpeace hmeeting).2 p' (.inl hcurrent.symm)
        exact ⟨p'', haction⟩
      · obtain ⟨p'', rfl⟩ := (hpeace hmeeting).2 p (.inr hp.symm)
        exact ⟨p'', haction⟩
    · rw [hother u hu]
      exact hf.reduce hall ((hold hp).resolve_right fun e => hu e.1)
  · intro n s hs
    exact List.mem_append_left _ (hf.made_of_goto hs)
  · intro n s hs
    exact hf.goto_of_made (by simpa using hs)

theorem Reflects.goto {made : List Proposal} {f : Filling} (hf : f.Reflects g made)
    {n : NonterminalId} {target : StateId} (hlt : n.index < f.gotos.size) :
    Reflects g (made ++ [.goto n target])
      { f with gotos := f.gotos.setIfInBounds n.index (some target) } := by
  have hcells : ∀ {m : NonterminalId}, (f.gotos.setIfInBounds n.index (some target))[m.index]? =
      if n = m then some (some target) else f.gotos[m.index]? := by
    intro m
    rw [Array.getElem?_setIfInBounds]
    by_cases hm : n = m
    · subst hm
      simp [hlt]
    · rw [if_neg fun e => hm (Ident.ext_index e), if_neg hm]
  refine ⟨hf.size, by simpa using hf.gotos_size, hf.default, ?_, ?_, ?_, ?_, ?_, ?_⟩
  · intro t action h
    exact (hf.made_of_cell h).imp id fun h => h.imp id (List.mem_append_left _)
  · intro t action h
    exact hf.cell_of_made (by simpa using h)
  · intro hall t s h
    exact hf.shift hall (by simpa using h)
  · intro hall t p h
    exact hf.reduce hall (by simpa using h)
  · intro m s h
    rw [hcells] at h
    split at h
    · rename_i hm
      subst hm
      cases h
      simp
    · exact List.mem_append_left _ (hf.made_of_goto h)
  · intro m s h
    rw [hcells]
    split
    · exact ⟨target, rfl⟩
    · rename_i hm
      have hmem : Proposal.goto m s ∈ made := by
        simpa [Ne.symm hm] using h
      exact hf.goto_of_made hmem

theorem Reflects.propose {made : List Proposal} {f f' : Filling} (hf : f.Reflects g made)
    {state : StateId} {proposal : Proposal} (h : f.propose g state proposal = .ok f') :
    f'.Reflects g (made ++ [proposal]) := by
  unfold Filling.propose at h
  split at h
  · split at h
    · cases h
    · rename_i hinsert
      cases h
      exact hf.insert hinsert
  · split at h
    · rename_i hlt
      cases h
      exact hf.goto hlt
    · cases h

theorem Reflects.proposeAll {proposals made : List Proposal} {f f' : Filling}
    (hf : f.Reflects g made) {state : StateId}
    (h : f.proposeAll g state proposals = ⟨.ok (), f'⟩) :
    f'.Reflects g (made ++ proposals) := by
  induction proposals generalizing f made with
  | nil =>
      cases h
      rwa [List.append_nil]
  | cons proposal proposals ih =>
      unfold Filling.proposeAll at h
      split at h
      · cases h
      · rename_i f₁ hpropose
        simpa using ih (hf.propose hpropose) h

end Filling

end Lalr
