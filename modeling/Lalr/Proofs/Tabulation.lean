import Mathlib.Data.List.Forall2
import Lalr.Proofs.Cells

namespace Lalr

variable {g : Grammar}

theorem exists_of_forall₂ {α β : Type} {P : α → β → Prop} {as : List α} {bs : List β}
    (h : List.Forall₂ P as bs) {i : Nat} {a : α} (ha : as[i]? = some a) :
    ∃ b, bs[i]? = some b ∧ P a b := by
  induction h generalizing i with
  | nil => simp at ha
  | cons hab _ ih =>
      cases i with
      | zero =>
          cases ha
          exact ⟨_, rfl, hab⟩
      | succ i => exact ih ha

theorem mem_pairs {α : Type} {a b : α} {as : List α} (ha : a ∈ as) (hb : b ∈ as) :
    a = b ∨ (a, b) ∈ pairs as ∨ (b, a) ∈ pairs as := by
  induction as with
  | nil => simp at ha
  | cons c as ih =>
      simp only [pairs, List.mem_append, List.mem_map, Prod.mk.injEq, exists_eq_right_right]
      rcases List.mem_cons.mp ha with rfl | ha' <;> rcases List.mem_cons.mp hb with rfl | hb'
      · exact .inl rfl
      · exact .inr (.inl (.inl ⟨hb', rfl⟩))
      · exact .inr (.inr (.inl ⟨ha', rfl⟩))
      · exact (ih ha' hb').imp id fun h => h.imp .inr .inr

namespace State

@[simp] theorem mem_insertByProduction {item x : Item} {items : List Item} :
    x ∈ insertByProduction item items ↔ x = item ∨ x ∈ items := by
  induction items with
  | nil => simp [insertByProduction]
  | cons other items ih =>
      unfold insertByProduction
      split
      · simp only [List.mem_cons, ih]
        exact or_left_comm
      · simp

theorem mem_completedOf {items completed : List Item} (h : completedOf g items = .ok completed)
    {x : Item} : x ∈ completed ↔ x ∈ items ∧ g.after x.core = [] := by
  induction items generalizing completed with
  | nil =>
      cases h
      simp
  | cons item items ih =>
      unfold completedOf at h
      rcases hend : item.core.atEnd g with e | ended
      · rw [hend] at h
        cases h
      · rcases hrest : completedOf g items with e | rest
        · rw [hend, hrest] at h
          cases h
        · rw [hend, hrest] at h
          cases h
          have hitem := Grammar.atEnd_eq_ok hend
          cases ended with
          | true =>
              have hafter := hitem.mp rfl
              rw [if_pos rfl, mem_insertByProduction, ih hrest, List.mem_cons]
              constructor
              · rintro (rfl | hx)
                · exact ⟨.inl rfl, hafter⟩
                · exact ⟨.inr hx.1, hx.2⟩
              · rintro ⟨rfl | hx, hafter'⟩
                · exact .inl rfl
                · exact .inr ⟨hx, hafter'⟩
          | false =>
              have hafter : g.after item.core ≠ [] := fun e => by simpa using hitem.mpr e
              rw [if_neg Bool.false_ne_true, ih hrest, List.mem_cons]
              constructor
              · rintro ⟨hx, hafter'⟩
                exact ⟨.inr hx, hafter'⟩
              · rintro ⟨rfl | hx, hafter'⟩
                · exact absurd hafter' hafter
                · exact ⟨hx, hafter'⟩

theorem action_mem_proposals {q : State} {completed : List Item} {t : TerminalId}
    {action : Action} : .action t action ∈ q.proposals completed ↔
      (∃ item ∈ completed, t ∈ item.lookahead ∧ action = .reduce item.core.production) ∨
        ∃ s, (.terminal t, s) ∈ q.transitions ∧ action = .shift s := by
  unfold proposals
  rw [List.mem_append, List.mem_flatMap, List.mem_map]
  refine or_congr ?_ ?_
  · simp only [List.mem_map, IdentSet.mem_toList, Proposal.action.injEq]
    constructor
    · rintro ⟨item, hitem, u, hu, rfl, rfl⟩
      exact ⟨item, hitem, hu, rfl⟩
    · rintro ⟨item, hitem, ht, rfl⟩
      exact ⟨item, hitem, t, ht, rfl, rfl⟩
  · constructor
    · rintro ⟨⟨u | n, s⟩, hs, h⟩
      · cases h
        exact ⟨s, hs, rfl⟩
      · cases h
    · rintro ⟨s, hs, rfl⟩
      exact ⟨_, hs, rfl⟩

theorem goto_mem_proposals {q : State} {completed : List Item} {n : NonterminalId} {s : StateId} :
    .goto n s ∈ q.proposals completed ↔ (.nonterminal n, s) ∈ q.transitions := by
  unfold proposals
  rw [List.mem_append, List.mem_flatMap, List.mem_map]
  constructor
  · rintro (⟨item, -, h⟩ | ⟨⟨u | m, s'⟩, hs, h⟩)
    · simp at h
    · cases h
    · cases h
      exact hs
  · intro hs
    exact .inr ⟨_, hs, rfl⟩

theorem eq_of_transitions {q : State} (hq : (q.transitions.map (·.1)).Nodup) {symbol : Symbol}
    {r s : StateId} (hr : (symbol, r) ∈ q.transitions) (hs : (symbol, s) ∈ q.transitions) :
    r = s := by
  rw [← transition?_eq_some hq] at hr hs
  exact Option.some.inj (hr.symm.trans hs)

/-- The rows of a state, where `counts` counts at least the conflicts met in them. -/
structure Tabulated (g : Grammar) (q : State) (counts : ConflictCounts) (row : ActionRow)
    (gotos : GotoRow) : Prop where
  size : row.cells.size = g.terminals.size
  gotos_size : gotos.size = g.nonterminals.size
  default : row.default = none
  reduce : ∀ {t p}, row.get? t = some (.reduce p) → ∃ item ∈ q.items.items,
    item.core.production = p ∧ g.after item.core = [] ∧ t ∈ item.lookahead
  shift : ∀ {t s}, row.get? t = some (.shift s) → (.terminal t, s) ∈ q.transitions
  taken : ∀ {t item}, item ∈ q.items.items → g.after item.core = [] → t ∈ item.lookahead →
    ∃ action, row.get? t = some action ∧ action ≠ .error
  goto : (q.transitions.map (·.1)).Nodup → ∀ {n : NonterminalId} {s : StateId},
    gotos[n.index]?.join = some s ↔ (.nonterminal n, s) ∈ q.transitions
  shift_of_settled : counts.shiftReduce = 0 → ∀ {t s}, (.terminal t, s) ∈ q.transitions →
    row.get? t = some (.shift s)
  reduce_of_settled : counts.shiftReduce = 0 → counts.reduceReduce = 0 → ∀ {t item},
    item ∈ q.items.items → g.after item.core = [] → t ∈ item.lookahead →
      row.get? t = some (.reduce item.core.production)

theorem Tabulated.mono {q : State} {counts counts' : ConflictCounts} {row : ActionRow}
    {gotos : GotoRow} (h : q.Tabulated g counts row gotos)
    (hshift : counts'.shiftReduce = 0 → counts.shiftReduce = 0)
    (hreduce : counts'.reduceReduce = 0 → counts.reduceReduce = 0) :
    q.Tabulated g counts' row gotos :=
  { h with
    shift_of_settled := fun hs => h.shift_of_settled (hshift hs)
    reduce_of_settled := fun hs hr => h.reduce_of_settled (hshift hs) (hreduce hr) }

theorem peaceful_of_counts {f : Filling} {state : StateId} (hresolved : f.resolved state = [])
    (hopen : f.unresolved = []) : f.Peaceful := by
  rintro ⟨t, insertion⟩ hx hmeeting
  rw [← Array.mem_toList_iff] at hx
  unfold Filling.resolved at hresolved
  unfold Filling.unresolved at hopen
  rw [List.filterMap_eq_nil_iff] at hresolved hopen
  have hr := hresolved _ hx
  have ho := hopen _ hx
  cases insertion <;> simp_all [Insertion.IsMeeting]

theorem eq_of_reduceReduceConflicts {q : State} {completed : List Item}
    (h : q.reduceReduceConflicts completed = []) {x y : Item} (hx : x ∈ completed)
    (hy : y ∈ completed) {t : TerminalId} (htx : t ∈ x.lookahead) (hty : t ∈ y.lookahead) :
    x = y := by
  have hnone : ∀ {x y : Item}, (x, y) ∈ pairs completed → t ∈ x.lookahead → t ∈ y.lookahead →
      False := by
    intro x y hxy htx hty
    unfold reduceReduceConflicts at h
    have hreport := List.filterMap_eq_nil_iff.mp h _ hxy
    rcases hempty : (x.lookahead ∩ y.lookahead).isEmpty with _ | _
    · simp [hempty] at hreport
    · exact IdentSet.isEmpty_iff.mp hempty t (IdentSet.mem_inter.mpr ⟨htx, hty⟩)
  rcases mem_pairs hx hy with rfl | hxy | hyx
  · rfl
  · exact (hnone hxy htx hty).elim
  · exact (hnone hyx hty htx).elim

theorem tabulate_ok {q : State} {row : ActionRow} {gotos : GotoRow} {counts : ConflictCounts}
    {reports : List Diagnostic} (h : q.tabulate g = ⟨.ok (row, gotos, counts), reports⟩) :
    q.Tabulated g counts row gotos := by
  unfold tabulate at h
  split at h
  · cases h
  · rename_i completed hcompleted
    have hmem : ∀ {x : Item}, x ∈ completed ↔ x ∈ q.items.items ∧ g.after x.core = [] :=
      (mem_completedOf hcompleted).trans (by rw [Array.mem_toList_iff])
    split at h
    · cases h
    · rename_i filling hfill
      have hf := Filling.reflects_blank.proposeAll hfill
      rw [List.nil_append] at hf
      simp only at h
      split at h
      · cases h
      · cases h
        have hpeaceful : ((filling.resolved q.id).length + filling.unresolved.length = 0) →
            filling.Peaceful := by
          intro hzero
          exact peaceful_of_counts
            (List.eq_nil_of_length_eq_zero (Nat.eq_zero_of_add_eq_zero_right hzero))
            (List.eq_nil_of_length_eq_zero (Nat.eq_zero_of_add_eq_zero_left hzero))
        refine ⟨hf.size, hf.gotos_size, hf.default, ?_, ?_, ?_, ?_, ?_, ?_⟩
        · intro t p ht
          have hmade := ((hf.made_of_cell ht).resolve_left nofun).resolve_left nofun
          rcases action_mem_proposals.mp hmade with ⟨item, hitem, hla, hp⟩ | ⟨s, -, hs⟩
          · cases hp
            exact ⟨item, (hmem.mp hitem).1, rfl, (hmem.mp hitem).2, hla⟩
          · cases hs
        · intro t s ht
          have hmade := ((hf.made_of_cell ht).resolve_left nofun).resolve_left nofun
          rcases action_mem_proposals.mp hmade with ⟨item, -, -, hp⟩ | ⟨s', hs', hs⟩
          · cases hp
          · cases hs
            exact hs'
        · intro t item hitem hafter hla
          exact hf.cell_of_made
            (action_mem_proposals.mpr (.inl ⟨item, hmem.mpr ⟨hitem, hafter⟩, hla, rfl⟩))
        · intro hnodup n s
          rw [Option.join_eq_some_iff]
          constructor
          · intro hs
            exact goto_mem_proposals.mp (hf.made_of_goto hs)
          · intro hs
            obtain ⟨s', hs'⟩ := hf.goto_of_made (goto_mem_proposals.mpr hs)
            have hmade := goto_mem_proposals.mp (hf.made_of_goto hs')
            exact eq_of_transitions hnodup hmade hs ▸ hs'
        · intro hzero t s hs
          exact hf.shift (hpeaceful hzero) (action_mem_proposals.mpr (.inr ⟨s, hs, rfl⟩))
        · intro hzero hnone t item hitem hafter hla
          have hitem' := hmem.mpr ⟨hitem, hafter⟩
          obtain ⟨p', hp'⟩ := hf.reduce (hpeaceful hzero)
            (action_mem_proposals.mpr (.inl ⟨item, hitem', hla, rfl⟩))
          have hmade := ((hf.made_of_cell hp').resolve_left nofun).resolve_left nofun
          rcases action_mem_proposals.mp hmade with ⟨other, hother, hla', hp⟩ | ⟨s, -, hs⟩
          · cases hp
            rw [eq_of_reduceReduceConflicts (List.eq_nil_of_length_eq_zero hnone) hitem' hother
              hla hla']
            exact hp'
          · cases hs

end State

namespace Tables

structure Tabulate (g : Grammar) (a : Automaton) (tables : Tables) : Prop where
  size : tables.actions.rows.size = a.states.size
  gotos_size : tables.gotos.rows.size = a.states.size
  rows : ∀ {i : Nat} {q : State}, a.states[i]? = some q → ∃ row gotos,
    tables.actions.rows[i]? = some row ∧ tables.gotos.rows[i]? = some gotos ∧
      q.Tabulated g tables.counts row gotos

theorem addStates_ok {σ : Type} [DiagnosticSink σ] {states : List State} {tables tables' : Tables}
    {sink sink' : σ} (h : addStates g tables sink states = ⟨.ok tables', sink'⟩) :
    (tables'.counts.shiftReduce = 0 → tables.counts.shiftReduce = 0) ∧
    (tables'.counts.reduceReduce = 0 → tables.counts.reduceReduce = 0) ∧
    ∃ rows : List (ActionRow × GotoRow),
      tables'.actions.rows.toList = tables.actions.rows.toList ++ rows.map (·.1) ∧
      tables'.gotos.rows.toList = tables.gotos.rows.toList ++ rows.map (·.2) ∧
      List.Forall₂ (fun q r => q.Tabulated g tables'.counts r.1 r.2) states rows := by
  induction states generalizing tables sink with
  | nil =>
      cases h
      exact ⟨fun hs => hs, fun hr => hr, [], by simp, by simp, .nil⟩
  | cons q states ih =>
      unfold addStates at h
      split at h
      · cases h
      · rename_i row gotos counts reports htabulate
        obtain ⟨hshift, hreduce, rows, hactions, hgotos, hrows⟩ := ih h
        simp only [ConflictCounts.add, Nat.add_eq_zero_iff] at hshift hreduce
        refine ⟨fun hs => (hshift hs).1, fun hr => (hreduce hr).1, (row, gotos) :: rows, ?_, ?_, ?_⟩
        · rw [hactions]
          simp
        · rw [hgotos]
          simp
        · exact .cons ((State.tabulate_ok htabulate).mono (fun hs => (hshift hs).2)
            fun hr => (hreduce hr).2) hrows

theorem exists_rows {states : Array State} {tables : Tables}
    {P : State → ActionRow → GotoRow → Prop} {rows : List (ActionRow × GotoRow)}
    (hactions : tables.actions.rows.toList = rows.map (·.1))
    (hgotos : tables.gotos.rows.toList = rows.map (·.2))
    (hrows : List.Forall₂ (fun q r => P q r.1 r.2) states.toList rows) :
    tables.actions.rows.size = states.size ∧ tables.gotos.rows.size = states.size ∧
      ∀ {i : Nat} {q : State}, states[i]? = some q → ∃ row gotos,
        tables.actions.rows[i]? = some row ∧ tables.gotos.rows[i]? = some gotos ∧
          P q row gotos := by
  refine ⟨?_, ?_, fun {i q} hq => ?_⟩
  · rw [← Array.length_toList, hactions, List.length_map, ← hrows.length_eq, Array.length_toList]
  · rw [← Array.length_toList, hgotos, List.length_map, ← hrows.length_eq, Array.length_toList]
  · obtain ⟨r, hr, hrow⟩ := exists_of_forall₂ hrows (Array.getElem?_toList.trans hq)
    refine ⟨r.1, r.2, ?_, ?_, hrow⟩
    · rw [← Array.getElem?_toList, hactions, List.getElem?_map, hr, Option.map_some]
    · rw [← Array.getElem?_toList, hgotos, List.getElem?_map, hr, Option.map_some]

theorem tabulate_of_fill {σ : Type} [DiagnosticSink σ] {a : Automaton} {tables : Tables}
    {sink sink' : σ} (h : fill g a sink = ⟨.ok tables, sink'⟩) : tables.Tabulate g a := by
  obtain ⟨-, -, rows, hactions, hgotos, hrows⟩ := addStates_ok h
  obtain ⟨hsize, hgotosSize, hall⟩ := exists_rows hactions hgotos hrows
  exact ⟨hsize, hgotosSize, hall⟩

end Tables

end Lalr
