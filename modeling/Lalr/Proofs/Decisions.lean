import Mathlib.Order.WellFounded
import Lalr.Proofs.DeclaredSymbols
import Lalr.Proofs.Resolution
import Lalr.Proofs.Traversal

namespace Lalr

variable {g : Grammar}

/-- The core of a production with the mark at the end. -/
def Grammar.finalCore (g : Grammar) (p : ProductionId) : ItemCore :=
  ⟨p, (g.production? p).elim 0 (·.length)⟩

namespace State

/-- A completed item for `p` has `t` in its lookahead. -/
def Completes (g : Grammar) (q : State) (t : TerminalId) (p : ProductionId) : Prop :=
  ∃ item ∈ q.items.items, item.core.production = p ∧ item.core.atEnd g = .ok true ∧
    t ∈ item.lookahead

def Ends (g : Grammar) (q : State) (item : Item) : Prop :=
  item ∈ q.items.items ∧ item.core.atEnd g = .ok true

/-- `p` is the lowest production that is completed under `t`. -/
def Reduces (g : Grammar) (q : State) (t : TerminalId) (p : ProductionId) : Prop :=
  q.Completes g t p ∧ ∀ p', q.Completes g t p' → ¬ p' < p

/-- What a state is to do on a terminal. -/
inductive Resolves (g : Grammar) (q : State) (t : TerminalId) : Action → Prop
  | error (hp : ∀ p, ¬ q.Completes g t p) (hs : q.transition? (.terminal t) = none) :
      Resolves g q t .error
  | shift {s : StateId} (hp : ∀ p, ¬ q.Completes g t p)
      (hs : q.transition? (.terminal t) = some s) : Resolves g q t (.shift s)
  | reduce {p : ProductionId} (hp : q.Reduces g t p) (hs : q.transition? (.terminal t) = none) :
      Resolves g q t (.reduce p)
  | both {p : ProductionId} {s : StateId} {resolution : Resolution} (hp : q.Reduces g t p)
      (hs : q.transition? (.terminal t) = some s)
      (h : Resolution.Declared (g.precedenceOn t) (g.precedenceOf p) resolution) :
      Resolves g q t (resolution.action s p)

variable {q : State}

theorem Reduces.unique {t : TerminalId} {p p' : ProductionId}
    (h : q.Reduces g t p) (h' : q.Reduces g t p') : p = p' := by
  have hlt := h'.2 p h.1
  have hgt := h.2 p' h'.1
  rw [Ident.lt_iff] at hlt hgt
  exact Ident.ext_index (by omega)

theorem Resolves.unique {t : TerminalId} {action action' : Action}
    (h : q.Resolves g t action) (h' : q.Resolves g t action') : action = action' := by
  cases h with
  | error hp hs =>
      cases h' with
      | error => rfl
      | shift _ hs' => simp [hs] at hs'
      | reduce hp' => exact absurd hp'.1 (hp _)
      | both hp' => exact absurd hp'.1 (hp _)
  | shift hp hs =>
      cases h' with
      | error _ hs' => simp [hs] at hs'
      | shift _ hs' => rw [Option.some.inj (hs.symm.trans hs')]
      | reduce hp' => exact absurd hp'.1 (hp _)
      | both hp' => exact absurd hp'.1 (hp _)
  | reduce hp hs =>
      cases h' with
      | error hp' => exact absurd hp.1 (hp' _)
      | shift hp' => exact absurd hp.1 (hp' _)
      | reduce hp' => rw [hp.unique hp']
      | both _ hs' => simp [hs] at hs'
  | both hp hs h =>
      cases h' with
      | error hp' => exact absurd hp.1 (hp' _)
      | shift hp' => exact absurd hp.1 (hp' _)
      | reduce _ hs' => simp [hs] at hs'
      | both hp' hs' h' =>
          obtain rfl := hp.unique hp'
          obtain rfl := Option.some.inj (hs.symm.trans hs')
          rw [Resolution.declared_iff] at h h'
          rw [← h, ← h']

theorem Completes.exists_reduces {t : TerminalId} {p : ProductionId} (h : q.Completes g t p) :
    ∃ p, q.Reduces g t p := by
  obtain ⟨lowest, hlowest, hleast⟩ :=
    (InvImage.wf Ident.index Nat.lt_wfRel.wf).has_min {p | q.Completes g t p} ⟨p, h⟩
  exact ⟨lowest, hlowest, hleast⟩

theorem exists_resolves (g : Grammar) (q : State) (t : TerminalId) :
    ∃ action, q.Resolves g t action := by
  by_cases hcompletes : ∃ p, q.Completes g t p
  · obtain ⟨p, hp⟩ := hcompletes
    obtain ⟨lowest, hlowest⟩ := hp.exists_reduces
    rcases hs : q.transition? (.terminal t) with _ | s
    · exact ⟨_, .reduce hlowest hs⟩
    · exact ⟨_, .both hlowest hs (Resolution.declared_iff.mpr rfl)⟩
  · rw [not_exists] at hcompletes
    rcases hs : q.transition? (.terminal t) with _ | s
    · exact ⟨_, .error hcompletes hs⟩
    · exact ⟨_, .shift hcompletes hs⟩

/-- A reduction is done where nothing can be shifted, or where precedence is in favour of it. -/
theorem Resolves.reduce_cases {t : TerminalId} {p : ProductionId}
    (h : q.Resolves g t (.reduce p)) :
    q.Reduces g t p ∧ (q.transition? (.terminal t) = none ∨
      Resolution.Declared (g.precedenceOn t) (g.precedenceOf p) .reduce) := by
  generalize haction : Action.reduce p = action at h
  cases h with
  | error => cases haction
  | shift => cases haction
  | reduce hreduces htransition =>
      cases haction
      exact ⟨hreduces, .inl htransition⟩
  | @both _ _ resolution hreduces _ hdeclared =>
      cases resolution <;> cases haction
      exact ⟨hreduces, .inr hdeclared⟩

theorem Resolves.ne_reduce {t : TerminalId} {action : Action} (h : q.Resolves g t action)
    {p p' : ProductionId} (hp' : q.Completes g t p') (hlt : p' < p) : action ≠ .reduce p := by
  rintro rfl
  exact h.reduce_cases.1.2 p' hp' hlt

/-- The grammar knows whatever the state mentions, and no mark stands beyond the end. -/
structure Grounded (g : Grammar) (q : State) : Prop where
  production : ∀ item ∈ q.items.items, (g.production? item.core.production).isSome
  dot_le : ∀ item ∈ q.items.items, item.core.dot ≤ (g.finalCore item.core.production).dot
  lookahead : ∀ item ∈ q.items.items, ∀ t ∈ item.lookahead, g.Knows (.terminal t)
  transition : ∀ symbol s, (symbol, s) ∈ q.transitions → g.Knows symbol
  nodup : (q.transitions.map (·.1)).Nodup

theorem exists_completedOf {items : List Item}
    (h : ∀ item ∈ items, (g.production? item.core.production).isSome) :
    ∃ completed, completedOf g items = .ok completed := by
  induction items with
  | nil => exact ⟨[], rfl⟩
  | cons item items ih =>
      obtain ⟨ended, hended⟩ := Grammar.exists_atEnd (h item List.mem_cons_self)
      obtain ⟨completed, hcompleted⟩ := ih fun x hx => h x (List.mem_cons_of_mem _ hx)
      rw [completedOf, hended, hcompleted]
      exact ⟨_, rfl⟩

theorem Grounded.ends_iff (hq : q.Grounded g) {completed : List Item}
    (hcompleted : q.completed g = .ok completed) {item : Item} :
    item ∈ completed ↔ q.Ends g item := by
  rw [mem_completedOf hcompleted, Array.mem_toList_iff]
  exact and_congr_right fun hitem => (Grammar.atEnd_iff (hq.production item hitem)).symm

def reductions (completed : List Item) : List Proposal :=
  completed.flatMap fun item => item.lookahead.toList.map fun t =>
    .action t (.reduce item.core.production)

def reductionsOn (t : TerminalId) (completed : List Item) : List ProductionId :=
  completed.flatMap fun item =>
    (item.lookahead.toList.filter (· = t)).map fun _ => item.core.production

theorem mem_reductionsOn {t : TerminalId} {completed : List Item} {p : ProductionId} :
    p ∈ reductionsOn t completed ↔
      ∃ item ∈ completed, item.core.production = p ∧ t ∈ item.lookahead := by
  unfold reductionsOn
  simp only [List.mem_flatMap, List.mem_map, List.mem_filter, IdentSet.mem_toList,
    decide_eq_true_eq]
  constructor
  · rintro ⟨item, hitem, u, ⟨hu, rfl⟩, rfl⟩
    exact ⟨item, hitem, rfl, hu⟩
  · rintro ⟨item, hitem, rfl, ht⟩
    exact ⟨item, hitem, t, ⟨ht, rfl⟩, rfl⟩

theorem flatMap_actionsOn_reduce (t : TerminalId) (p : ProductionId) (ts : List TerminalId) :
    (ts.flatMap fun u => (Proposal.action u (.reduce p)).actionsOn t) =
      ((ts.filter (· = t)).map fun _ => p).map .reduce := by
  induction ts with
  | nil => rfl
  | cons u ts ih =>
      rw [List.flatMap_cons, ih, Proposal.actionsOn]
      by_cases hu : u = t <;> simp [hu]

theorem flatMap_actionsOn_shift (t : TerminalId) {transitions : List (Symbol × StateId)}
    (h : (transitions.map (·.1)).Nodup) :
    (transitions.flatMap fun (symbol, target) => Proposal.actionsOn t <|
        match symbol with
        | .terminal u => .action u (.shift target)
        | .nonterminal n => .goto n target) =
      ((transitions.find? (·.1 == .terminal t)).map (·.2)).toList.map .shift := by
  induction transitions with
  | nil => rfl
  | cons entry transitions ih =>
      obtain ⟨symbol, target⟩ := entry
      obtain ⟨hfresh, hrest⟩ := List.nodup_cons.mp h
      rw [List.flatMap_cons, ih hrest, List.find?_cons]
      cases symbol with
      | nonterminal n => rfl
      | terminal u =>
          by_cases hu : u = t
          · subst hu
            have hnone : transitions.find? (·.1 == .terminal u) = none := by
              rw [List.find?_eq_none]
              intro entry hentry
              rw [beq_iff_eq]
              exact fun heq => hfresh (List.mem_map.mpr ⟨entry, hentry, heq⟩)
            simp [hnone, Proposal.actionsOn]
          · have hne : (Symbol.terminal u == Symbol.terminal t) = false :=
              beq_eq_false_iff_ne.mpr fun heq => hu (Symbol.terminal.inj heq)
            simp [hne, hu, Proposal.actionsOn]

theorem actionsOn_reductions (completed : List Item) (t : TerminalId) :
    (reductions completed).flatMap (·.actionsOn t) = (reductionsOn t completed).map .reduce := by
  rw [reductions, List.flatMap_assoc]
  simp only [List.flatMap_map, flatMap_actionsOn_reduce, reductionsOn, List.map_flatMap]

theorem actionsOn_proposals (hq : (q.transitions.map (·.1)).Nodup)
    (completed : List Item) (t : TerminalId) :
    (q.proposals completed).flatMap (·.actionsOn t) =
      (reductionsOn t completed).map .reduce ++
        (q.transition? (.terminal t)).toList.map .shift := by
  rw [proposals, List.flatMap_append, List.flatMap_map]
  exact congrArg₂ (· ++ ·) (actionsOn_reductions completed t) (flatMap_actionsOn_shift t hq)

theorem Grounded.exists_meetAll_reductions (hq : q.Grounded g) {completed : List Item}
    (hcompleted : q.completed g = .ok completed) (t : TerminalId) :
    ∃ action, ActionRow.meetAll g q.id t .error ((reductionsOn t completed).map .reduce) =
        .ok action ∧
      (action = .error ∧ (∀ p, ¬ q.Completes g t p) ∨
        ∃ p, action = .reduce p ∧ q.Reduces g t p) := by
  have hmem : ∀ p, p ∈ reductionsOn t completed ↔ q.Completes g t p := by
    intro p
    simp only [mem_reductionsOn, hq.ends_iff hcompleted]
    constructor
    · rintro ⟨item, ⟨hitem, hend⟩, hp, ht⟩
      exact ⟨item, hitem, hp, hend, ht⟩
    · rintro ⟨item, hitem, hp, hend, ht⟩
      exact ⟨item, ⟨hitem, hend⟩, hp, ht⟩
  rcases hps : reductionsOn t completed with _ | ⟨p, ps⟩
  · refine ⟨.error, rfl, .inl ⟨rfl, fun p hp => ?_⟩⟩
    simpa [hps] using (hmem p).mpr hp
  · obtain ⟨lowest, hlowest, hmeet, hleast⟩ :=
      @ActionRow.meetAll_reduces g q.id t p ps
    rw [← hps] at hlowest hleast
    refine ⟨.reduce lowest, ?_, .inr ⟨lowest, rfl, (hmem lowest).mp hlowest, fun p' hp' =>
      hleast p' ((hmem p').mpr hp')⟩⟩
    rw [List.map_cons, ActionRow.meetAll, ActionRow.meet_error rfl]
    exact hmeet

/-- The proposals for a terminal can be made one after the other, and what comes of them is what
the state is to do. -/
theorem Grounded.exists_meetAll (hq : q.Grounded g) {completed : List Item}
    (hcompleted : q.completed g = .ok completed) (t : TerminalId) :
    ∃ action, q.Resolves g t action ∧
      ActionRow.meetAll g q.id t .error ((q.proposals completed).flatMap (·.actionsOn t)) =
        .ok action := by
  obtain ⟨middle, hfirst, hmiddle⟩ := hq.exists_meetAll_reductions hcompleted t
  rw [actionsOn_proposals hq.nodup]
  simp only [ActionRow.meetAll_append, hfirst, Except.ok.injEq, exists_eq_left']
  rcases hs : q.transition? (.terminal t) with _ | s
  · rcases hmiddle with ⟨rfl, hnone⟩ | ⟨p, rfl, hreduces⟩
    · exact ⟨.error, .error hnone hs, rfl⟩
    · exact ⟨.reduce p, .reduce hreduces hs, rfl⟩
  · rw [Option.toList_some, List.map_singleton]
    simp only [ActionRow.meetAll_singleton]
    rcases hmiddle with ⟨rfl, hnone⟩ | ⟨p, rfl, hreduces⟩
    · exact ⟨.shift s, .shift hnone hs, .placed, rfl⟩
    · obtain ⟨item, hitem, rfl, -⟩ := hreduces.1
      obtain ⟨resolution, insertion, hdeclared, hboth⟩ :=
        ActionRow.meet_reduce_shift q.id t s (hq.production item hitem)
      exact ⟨_, .both hreduces hs hdeclared, insertion, hboth⟩

theorem Grounded.core_eq (hq : q.Grounded g) {item : Item}
    (hitem : item ∈ q.items.items) (hafter : g.after item.core = []) :
    item.core = g.finalCore item.core.production := by
  have hle := hq.dot_le item hitem
  obtain ⟨p, hp⟩ := Option.isSome_iff_exists.mp (hq.production item hitem)
  refine ItemCore.ext rfl (Nat.le_antisymm hle ?_)
  rw [Grammar.after, hp, Option.elim_some, List.drop_eq_nil_iff] at hafter
  rw [Grammar.finalCore, hp, Option.elim_some, Rule.length]
  simpa [Rule.symbols] using hafter

theorem Grounded.fits (hq : q.Grounded g) {completed : List Item}
    (hcompleted : q.completed g = .ok completed) :
    ∀ proposal ∈ q.proposals completed, (Filling.blank g).Fits proposal := by
  have hknows : ∀ {t action}, .action t action ∈ q.proposals completed →
      g.Knows (.terminal t) := by
    intro t action h
    rcases action_mem_proposals.mp h with ⟨item, hitem, ht, -⟩ | ⟨s, hs, -⟩
    · rw [mem_completedOf hcompleted, Array.mem_toList_iff] at hitem
      exact hq.lookahead item hitem.1 t ht
    · exact hq.transition _ s hs
  intro proposal hproposal
  cases proposal with
  | action t action =>
      have : t.index < g.terminals.size := hknows hproposal
      simpa [Filling.Fits, Filling.blank, ActionRow.blank] using this
  | goto n s =>
      have : n.index < g.nonterminals.size := hq.transition _ s (goto_mem_proposals.mp hproposal)
      simpa [Filling.Fits, Filling.blank] using this

theorem get?_blank {t : TerminalId} {current : Action} :
    (Filling.blank g).actions.get? t = some current ↔
      g.Knows (.terminal t) ∧ current = .error := by
  simp only [Filling.blank, ActionRow.blank, ActionRow.get?, Array.getElem?_replicate]
  change _ ↔ t.index < g.terminals.size ∧ _
  split <;> simp_all [eq_comm]

theorem Grounded.exists_filling (hq : q.Grounded g) :
    ∃ completed f, q.completed g = .ok completed ∧
      (Filling.blank g).proposeAll g q.id (q.proposals completed) = ⟨.ok (), f⟩ ∧
      Filling.Settles g q.id (fun t => (q.proposals completed).flatMap (·.actionsOn t))
        (Filling.blank g) f := by
  obtain ⟨completed, hcompleted⟩ : ∃ completed, q.completed g = .ok completed :=
    exists_completedOf fun item hitem => hq.production item (Array.mem_toList_iff.mp hitem)
  obtain ⟨f, hfill, hsettles⟩ := Filling.exists_proposeAll (hq.fits hcompleted)
    fun t current hcurrent => by
      obtain ⟨action, -, hmeet⟩ := hq.exists_meetAll hcompleted t
      rw [(get?_blank.mp hcurrent).2]
      exact ⟨action, hmeet⟩
  exact ⟨completed, f, hcompleted, hfill, hsettles⟩

end State

end Lalr
