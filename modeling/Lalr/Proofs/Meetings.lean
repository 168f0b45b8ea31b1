import Lalr.Proofs.Decisions

namespace Lalr

variable {g : Grammar}

theorem Resolution.between_eq_none {s r : Option Precedence} :
    between s r = none ↔ s = none ∧ r = none := by
  rcases s with _ | s <;> rcases r with _ | r <;> simp only [between, reduceCtorEq, and_self,
    and_false, false_and, iff_false]
  split
  · simp
  · split
    · simp
    · cases s.associativity <;> simp

/-- What an insertion says of a meeting is what the precedences say. -/
def Insertion.Tells (g : Grammar) (t : TerminalId) : Insertion → Prop
  | .placed => True
  | .reduceReduce => True
  | .resolved p resolution => g.resolution? t p = some resolution
  | .unresolved p => g.resolution? t p = none

def Insertion.met? : Insertion → Option ProductionId
  | .placed => none
  | .reduceReduce => none
  | .resolved p _ => some p
  | .unresolved p => some p

def Action.Reductive (action : Action) : Prop :=
  action = .error ∨ ∃ p, action = .reduce p

def Action.reduction? : Action → Option ProductionId
  | .reduce p => some p
  | _ => none

namespace ActionRow

variable {state : StateId} {t : TerminalId}

theorem settle_eq_ok {next : StateId} {p : ProductionId} {action : Action} {insertion : Insertion}
    (h : settle g t next p = .ok (action, insertion)) :
    insertion.Tells g t ∧ insertion.met? = some p := by
  cases hp : g.production? p with
  | none =>
      rw [settle_of_unknown t next hp] at h
      cases h
  | some production =>
      rw [settle_of_known t next (Option.isSome_iff_exists.mpr ⟨production, hp⟩)] at h
      cases h
      cases hresolution : g.resolution? t p <;> exact ⟨hresolution, rfl⟩

theorem meet_tells {current proposed action : Action} {insertion : Insertion}
    (h : meet g state t current proposed = .ok (action, insertion)) : insertion.Tells g t := by
  unfold meet at h
  split at h
  case h_5 => exact (settle_eq_ok h).1
  case h_6 => exact (settle_eq_ok h).1
  all_goals first | cases h | (split at h <;> cases h)
  all_goals trivial

theorem meet_reduce {current action : Action} {p : ProductionId} {insertion : Insertion}
    (hcurrent : current.Reductive)
    (h : meet g state t current (.reduce p) = .ok (action, insertion)) :
    action.Reductive ∧ insertion.met? = none := by
  rcases hcurrent with rfl | ⟨q, rfl⟩
  · cases h
    exact ⟨.inr ⟨p, rfl⟩, rfl⟩
  · simp only [meet] at h
    split at h <;> cases h <;> exact ⟨.inr ⟨_, rfl⟩, rfl⟩

theorem meet_shift {current action : Action} {next : StateId} {insertion : Insertion}
    (hcurrent : current.Reductive)
    (h : meet g state t current (.shift next) = .ok (action, insertion)) :
    insertion.met? = current.reduction? := by
  rcases hcurrent with rfl | ⟨p, rfl⟩
  · cases h
    rfl
  · exact (settle_eq_ok h).2

end ActionRow

namespace Filling

variable {state : StateId}

def meetings (f : Filling) : List (TerminalId × ProductionId) :=
  f.insertions.toList.filterMap fun (t, insertion) => insertion.met?.map (t, ·)

def Tells (g : Grammar) (f : Filling) : Prop :=
  ∀ x ∈ f.insertions, x.2.Tells g x.1

theorem tells_blank : (blank g).Tells g :=
  fun x hx => absurd hx (Array.not_mem_empty x)

theorem Tells.propose {f f' : Filling} (hf : f.Tells g) {proposal : Proposal}
    (h : f.propose g state proposal = .ok f') : f'.Tells g := by
  cases proposal with
  | goto n target =>
      unfold Filling.propose at h
      simp only at h
      split at h <;> cases h
      exact hf
  | action t proposed =>
      unfold Filling.propose at h
      simp only at h
      split at h
      · cases h
      · rename_i insertion row hinsert
        cases h
        obtain ⟨-, -, -, current, action, -, -, hmeet⟩ := ActionRow.insert_ok hinsert
        intro x hx
        rcases Array.mem_push.mp hx with hx | rfl
        · exact hf x hx
        · exact ActionRow.meet_tells hmeet

theorem Tells.proposeAll {proposals : List Proposal} {f f' : Filling} (hf : f.Tells g)
    (h : f.proposeAll g state proposals = ⟨.ok (), f'⟩) : f'.Tells g := by
  induction proposals generalizing f with
  | nil =>
      cases h
      exact hf
  | cons proposal proposals ih =>
      unfold Filling.proposeAll at h
      split at h
      · cases h
      · rename_i f₁ hpropose
        exact ih (hf.propose hpropose) h

theorem proposeAll_append {as bs : List Proposal} {f f' : Filling} :
    f.proposeAll g state (as ++ bs) = ⟨.ok (), f'⟩ ↔
      ∃ middle, f.proposeAll g state as = ⟨.ok (), middle⟩ ∧
        middle.proposeAll g state bs = ⟨.ok (), f'⟩ := by
  induction as generalizing f with
  | nil => simp [Filling.proposeAll, Attempt.succeed]
  | cons proposal as ih =>
      simp only [List.cons_append, Filling.proposeAll]
      split
      · simp [Attempt.fail]
      · exact ih

theorem resolved_eq {f : Filling} (hf : f.Tells g) : f.resolved state =
    f.meetings.filterMap fun (t, p) => (g.resolution? t p).map (.resolved state p t) := by
  unfold resolved meetings
  rw [List.filterMap_filterMap]
  refine List.filterMap_congr fun x hx => ?_
  have htells := hf x (Array.mem_toList_iff.mp hx)
  obtain ⟨t, insertion⟩ := x
  cases insertion <;> simp_all [Insertion.met?, Insertion.Tells]

theorem unresolved_eq {f : Filling} (hf : f.Tells g) :
    f.unresolved = f.meetings.filter fun (t, p) => (g.resolution? t p).isNone := by
  unfold unresolved meetings
  rw [List.filter_filterMap]
  refine List.filterMap_congr fun x hx => ?_
  have htells := hf x (Array.mem_toList_iff.mp hx)
  obtain ⟨t, insertion⟩ := x
  cases insertion <;> simp_all [Insertion.met?, Insertion.Tells, Option.filter]

/-- The cell of `t` holds a reduction if it holds anything. -/
def Reductive (f : Filling) (t : TerminalId) : Prop :=
  ∀ action, f.actions.get? t = some action → action.Reductive

def reduction? (f : Filling) (t : TerminalId) : Option ProductionId :=
  (f.actions.get? t).bind Action.reduction?

theorem meetings_push (row : ActionRow) (gotos : GotoRow)
    (insertions : Array (TerminalId × Insertion)) (t : TerminalId) (insertion : Insertion) :
    meetings ⟨row, gotos, insertions.push (t, insertion)⟩ =
      meetings ⟨row, gotos, insertions⟩ ++ (insertion.met?.map (t, ·)).toList := by
  rw [meetings, Array.toList_push, List.filterMap_append, meetings]
  cases hmet : insertion.met? <;> simp [hmet]

theorem Reductive.propose {f f' : Filling} (hf : ∀ t, f.Reductive t) {t : TerminalId}
    {p : ProductionId} (h : f.propose g state (.action t (.reduce p)) = .ok f') :
    (∀ t, f'.Reductive t) ∧ f'.meetings = f.meetings := by
  unfold Filling.propose at h
  simp only at h
  split at h
  · cases h
  · rename_i insertion row hinsert
    cases h
    obtain ⟨-, -, hother, current, action, hcurrent, haction, hmeet⟩ :=
      ActionRow.insert_ok hinsert
    obtain ⟨hreductive, hmet⟩ := ActionRow.meet_reduce (hf t current hcurrent) hmeet
    refine ⟨fun u action' haction' => ?_, ?_⟩
    · by_cases hu : u = t
      · subst hu
        rw [haction, Option.some.injEq] at haction'
        exact haction' ▸ hreductive
      · exact hf u action' ((hother u hu).symm.trans haction')
    · rw [meetings_push, hmet]
      exact List.append_nil _

theorem Reductive.proposeAll {proposals : List Proposal} {f f' : Filling}
    (hproposals : ∀ proposal ∈ proposals, ∃ t p, proposal = .action t (.reduce p))
    (hf : ∀ t, f.Reductive t) (h : f.proposeAll g state proposals = ⟨.ok (), f'⟩) :
    (∀ t, f'.Reductive t) ∧ f'.meetings = f.meetings := by
  induction proposals generalizing f with
  | nil =>
      cases h
      exact ⟨hf, rfl⟩
  | cons proposal proposals ih =>
      obtain ⟨t, p, rfl⟩ := hproposals proposal List.mem_cons_self
      unfold Filling.proposeAll at h
      split at h
      · cases h
      · rename_i f₁ hpropose
        obtain ⟨hreductive, hmeetings⟩ := Reductive.propose hf hpropose
        obtain ⟨hreductive', hmeetings'⟩ :=
          ih (fun other hother => hproposals other (List.mem_cons_of_mem _ hother)) hreductive h
        exact ⟨hreductive', hmeetings'.trans hmeetings⟩

theorem propose_shift {f f' : Filling} {t : TerminalId} {s : StateId} (hf : f.Reductive t)
    (h : f.propose g state (.action t (.shift s)) = .ok f') :
    f'.meetings = f.meetings ++ ((f.reduction? t).map (t, ·)).toList ∧
      ∀ u, u ≠ t → f'.actions.get? u = f.actions.get? u := by
  unfold Filling.propose at h
  simp only at h
  split at h
  · cases h
  · rename_i insertion row hinsert
    cases h
    obtain ⟨-, -, hother, current, action, hcurrent, -, hmeet⟩ := ActionRow.insert_ok hinsert
    refine ⟨?_, hother⟩
    rw [meetings_push, ActionRow.meet_shift (hf current hcurrent) hmeet, reduction?, hcurrent]
    rfl

def meeting? (f : Filling) : Symbol → Option (TerminalId × ProductionId)
  | .terminal t => (f.reduction? t).map (t, ·)
  | .nonterminal _ => none

theorem meeting?_congr {f f' : Filling} {symbol : Symbol}
    (h : ∀ t, .terminal t = symbol → f'.actions.get? t = f.actions.get? t) :
    f'.meeting? symbol = f.meeting? symbol := by
  cases symbol with
  | terminal t => rw [meeting?, meeting?, reduction?, reduction?, h t rfl]
  | nonterminal n => rfl

theorem propose_transition {f f' : Filling} {symbol : Symbol} {s : StateId}
    (h : f.propose g state (match symbol with
      | .terminal t => .action t (.shift s)
      | .nonterminal n => .goto n s) = .ok f')
    (hf : ∀ t, .terminal t = symbol → f.Reductive t) :
    f'.meetings = f.meetings ++ (f.meeting? symbol).toList ∧
      ∀ t, .terminal t ≠ symbol → f'.actions.get? t = f.actions.get? t := by
  cases symbol with
  | terminal t =>
      obtain ⟨hmeetings, hother⟩ := propose_shift (hf t rfl) h
      exact ⟨hmeetings, fun u hu => hother u fun heq => hu (congrArg _ heq)⟩
  | nonterminal n =>
      unfold Filling.propose at h
      simp only at h
      split at h <;> cases h
      exact ⟨(List.append_nil _).symm, fun _ _ => rfl⟩

theorem meetings_transitions {transitions : List (Symbol × StateId)}
    (hnodup : (transitions.map (·.1)).Nodup) {f f' : Filling}
    (hf : ∀ t, .terminal t ∈ transitions.map (·.1) → f.Reductive t)
    (h : f.proposeAll g state (transitions.map fun (symbol, target) =>
      match symbol with
      | .terminal t => .action t (.shift target)
      | .nonterminal n => .goto n target) = ⟨.ok (), f'⟩) :
    f'.meetings = f.meetings ++ (transitions.map (·.1)).filterMap f.meeting? := by
  induction transitions generalizing f with
  | nil =>
      cases h
      exact (List.append_nil _).symm
  | cons entry transitions ih =>
      obtain ⟨symbol, target⟩ := entry
      obtain ⟨hfresh, hrest⟩ := List.nodup_cons.mp hnodup
      rw [List.map_cons, Filling.proposeAll] at h
      split at h
      · cases h
      · rename_i f₁ hpropose
        obtain ⟨hmeetings, hother⟩ :=
          propose_transition hpropose fun t ht => hf t (ht ▸ List.mem_cons_self)
        have hcell : ∀ t, .terminal t ∈ transitions.map (·.1) →
            f₁.actions.get? t = f.actions.get? t :=
          fun t ht => hother t fun heq => hfresh (heq ▸ ht)
        have hlast := ih hrest (fun t ht action haction =>
          hf t (List.mem_cons_of_mem _ ht) action (hcell t ht ▸ haction)) h
        have hcongr : (transitions.map (·.1)).filterMap f₁.meeting? =
            (transitions.map (·.1)).filterMap f.meeting? :=
          List.filterMap_congr fun other hother => meeting?_congr fun t ht => hcell t (ht ▸ hother)
        rw [hlast, hmeetings, hcongr, List.append_assoc, List.map_cons]
        cases hmeeting : f.meeting? symbol <;> simp [hmeeting]

end Filling

namespace State

variable {q : State}

theorem Grounded.reduction?_eq_some (hq : q.Grounded g) {completed : List Item} {f : Filling}
    (hcompleted : q.completed g = .ok completed)
    (hfill : (Filling.blank g).proposeAll g q.id (reductions completed) = ⟨.ok (), f⟩)
    {t : TerminalId} {p : ProductionId} : f.reduction? t = some p ↔ q.Reduces g t p := by
  obtain ⟨f', hfill', hsettles⟩ := @Filling.exists_proposeAll g q.id (reductions completed)
    (Filling.blank g)
    (fun proposal hproposal => hq.fits hcompleted proposal (List.mem_append_left _ hproposal))
    fun u current hcurrent => by
      obtain ⟨action, hmeet, -⟩ := hq.exists_meetAll_reductions hcompleted u
      rw [(get?_blank.mp hcurrent).2, actionsOn_reductions]
      exact ⟨action, hmeet⟩
  obtain rfl : f' = f := by
    rw [hfill] at hfill'
    exact (congrArg Attempt.state hfill').symm
  obtain ⟨action, hmeet, haction⟩ := hq.exists_meetAll_reductions hcompleted t
  have hcell : g.Knows (.terminal t) → f'.actions.get? t = some action := by
    intro hknows
    obtain ⟨action', hcell, hmeet'⟩ := hsettles.cell (get?_blank.mpr ⟨hknows, rfl⟩)
    rw [actionsOn_reductions, hmeet, Except.ok.injEq] at hmeet'
    exact hmeet' ▸ hcell
  constructor
  · intro h
    obtain ⟨action', hget, hreduction⟩ := Option.bind_eq_some_iff.mp h
    have hknows : g.Knows (.terminal t) := by
      have hlt := (Array.getElem?_eq_some_iff.mp hget).1
      rwa [hsettles.size, Filling.blank, ActionRow.blank, Array.size_replicate] at hlt
    rw [hcell hknows, Option.some.injEq] at hget
    rw [← hget] at hreduction
    rcases haction with ⟨rfl, -⟩ | ⟨p', rfl, hreduces⟩
    · cases hreduction
    · cases hreduction
      exact hreduces
  · intro h
    obtain ⟨item, hitem, -, -, ht⟩ := h.1
    rw [Filling.reduction?, hcell (hq.lookahead item hitem t ht)]
    rcases haction with ⟨-, hnone⟩ | ⟨p', rfl, hreduces⟩
    · exact absurd h.1 (hnone p)
    · rw [hreduces.unique h]
      rfl

theorem isSome_transition? {symbol : Symbol} :
    (q.transition? symbol).isSome = true ↔ symbol ∈ q.transitions.map (·.1) := by
  rw [transition?, Option.isSome_map, List.find?_isSome, List.mem_map]
  simp only [beq_iff_eq]

/-- The meetings in the rows of a state, one on a terminal at most: a shift with the lowest
reduction. -/
theorem Grounded.mem_meetings (hq : q.Grounded g) {completed : List Item} {f : Filling}
    (hcompleted : q.completed g = .ok completed)
    (hfill : (Filling.blank g).proposeAll g q.id (q.proposals completed) = ⟨.ok (), f⟩) :
    (f.meetings.map (·.1)).Nodup ∧ ∀ {t p}, (t, p) ∈ f.meetings ↔
      q.Reduces g t p ∧ (q.transition? (.terminal t)).isSome = true := by
  obtain ⟨middle, hreductions, htransitions⟩ := Filling.proposeAll_append.mp hfill
  obtain ⟨hreductive, hmeetings⟩ := Filling.Reductive.proposeAll
    (fun proposal hproposal => by
      obtain ⟨item, -, hproposal⟩ := List.mem_flatMap.mp hproposal
      obtain ⟨t, -, rfl⟩ := List.mem_map.mp hproposal
      exact ⟨t, _, rfl⟩)
    (fun t action haction => .inl (get?_blank.mp haction).2) hreductions
  have hlist : f.meetings = (q.transitions.map (·.1)).filterMap middle.meeting? := by
    rw [Filling.meetings_transitions hq.nodup (fun t _ => hreductive t) htransitions, hmeetings]
    rfl
  have hmeeting : ∀ {symbol t p}, middle.meeting? symbol = some (t, p) ↔
      symbol = .terminal t ∧ q.Reduces g t p := by
    intro symbol t p
    rw [← hq.reduction?_eq_some hcompleted hreductions]
    cases symbol with
    | terminal u =>
        simp only [Filling.meeting?, Option.map_eq_some_iff, Prod.mk.injEq, Symbol.terminal.injEq]
        constructor
        · rintro ⟨p, hp, rfl, rfl⟩
          exact ⟨rfl, hp⟩
        · rintro ⟨rfl, hp⟩
          exact ⟨p, hp, rfl, rfl⟩
    | nonterminal n => simp [Filling.meeting?]
  constructor
  · rw [hlist, List.Nodup, List.pairwise_map, List.pairwise_filterMap]
    refine hq.nodup.imp fun hne meeting hfirst meeting' hsecond heq => hne ?_
    rw [(hmeeting.mp hfirst).1, (hmeeting.mp hsecond).1, heq]
  · intro t p
    simp only [hlist, List.mem_filterMap, hmeeting, isSome_transition?]
    constructor
    · rintro ⟨symbol, hsymbol, rfl, hp⟩
      exact ⟨hp, hsymbol⟩
    · rintro ⟨hp, ht⟩
      exact ⟨_, ht, rfl, hp⟩

end State

end Lalr
