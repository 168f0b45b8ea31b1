import Lalr.Proofs.Tabulation

namespace Lalr

/-- What is declared about shifting a terminal or reducing by a production, given the precedences of
the terminal and of the production. -/
inductive Resolution.Declared : Option Precedence → Option Precedence → Resolution → Prop
  | neither : Declared none none .shift
  | terminal (s : Precedence) : Declared (some s) none .shift
  | production (r : Precedence) : Declared none (some r) .reduce
  | higher {s r : Precedence} (h : r.priority < s.priority) : Declared (some s) (some r) .shift
  | lower {s r : Precedence} (h : s.priority < r.priority) : Declared (some s) (some r) .reduce
  | right {s r : Precedence} (h : s.priority = r.priority) (hs : s.associativity = .right) :
      Declared (some s) (some r) .shift
  | left {s r : Precedence} (h : s.priority = r.priority) (hs : s.associativity = .left) :
      Declared (some s) (some r) .reduce
  | nonassoc {s r : Precedence} (h : s.priority = r.priority)
      (hs : s.associativity = .nonassoc) : Declared (some s) (some r) .nonassoc

theorem Resolution.declared_iff {s r : Option Precedence} {resolution : Resolution} :
    Declared s r resolution ↔ (between s r).getD .shift = resolution := by
  constructor
  · intro h
    cases h with
    | neither => rfl
    | terminal s => rfl
    | production r => rfl
    | higher h => simp [between, h]
    | lower h => simp [between, h, Nat.lt_asymm h]
    | right h hs => simp [between, h, hs]
    | left h hs => simp [between, h, hs]
    | nonassoc h hs => simp [between, h, hs]
  · rintro rfl
    match s, r with
    | none, none => exact .neither
    | some s, none => exact .terminal s
    | none, some r => exact .production r
    | some s, some r =>
      unfold between
      rcases Nat.lt_trichotomy s.priority r.priority with h | h | h
      · simp only [if_pos h, if_neg (Nat.lt_asymm h)]
        exact .lower h
      · simp only [h, Nat.lt_irrefl, if_false]
        rcases hs : s.associativity with _ | _ | _
        · exact .left h hs
        · exact .right h hs
        · exact .nonassoc h hs
      · simp only [if_pos h]
        exact .higher h

/-- The precedence of a terminal, if the grammar knows it and gives it any. -/
def Grammar.precedenceOn (g : Grammar) (t : TerminalId) : Option Precedence :=
  (g.terminal? t).bind (·.precedence)

def Grammar.precedenceOf (g : Grammar) (p : ProductionId) : Option Precedence :=
  (g.production? p).bind (·.precedence)

/-- What precedence has to say about shifting `t` or reducing by `p`. -/
def Grammar.resolution? (g : Grammar) (t : TerminalId) (p : ProductionId) : Option Resolution :=
  Resolution.between (g.precedenceOn t) (g.precedenceOf p)

/-- The action that a resolution stands for. -/
def Resolution.action (next : StateId) (p : ProductionId) : Resolution → Action
  | .shift => .shift next
  | .reduce => .reduce p
  | .nonassoc => .nonassoc

def Insertion.ofMeeting (p : ProductionId) : Option Resolution → Insertion
  | none => .unresolved p
  | some resolution => .resolved p resolution

namespace ActionRow

variable {g : Grammar} {state : StateId} {t : TerminalId}

/-- What a cell holds in the end if actions are proposed for it one after the other. -/
def meetAll (g : Grammar) (state : StateId) (t : TerminalId) :
    Action → List Action → Except Violation Action
  | current, [] => .ok current
  | current, proposed :: rest =>
    match meet g state t current proposed with
    | .error e => .error e
    | .ok (action, _) => meetAll g state t action rest

theorem meetAll_append {current action : Action} {as bs : List Action} :
    meetAll g state t current (as ++ bs) = .ok action ↔
      ∃ middle, meetAll g state t current as = .ok middle ∧
        meetAll g state t middle bs = .ok action := by
  induction as generalizing current with
  | nil => simp [meetAll]
  | cons a as ih =>
      simp only [List.cons_append, meetAll]
      split
      · simp
      · exact ih

theorem meetAll_singleton {current proposed action : Action} :
    meetAll g state t current [proposed] = .ok action ↔
      ∃ insertion, meet g state t current proposed = .ok (action, insertion) := by
  simp only [meetAll]
  split <;> simp_all

theorem meet_error {proposed : Action} (h : proposed.isError = false) :
    meet g state t .error proposed = .ok (proposed, .placed) := by
  cases proposed <;> first | rfl | cases h

theorem meet_reduces (p q : ProductionId) : ∃ insertion,
    meet g state t (.reduce p) (.reduce q) = .ok (.reduce (if q < p then q else p), insertion) := by
  simp only [meet]
  by_cases h : p = q
  · subst h
    exact ⟨.placed, by rw [if_pos rfl, ite_self]⟩
  · exact ⟨.reduceReduce, by rw [if_neg h]⟩

theorem meetAll_reduces (p : ProductionId) (ps : List ProductionId) :
    ∃ lowest ∈ p :: ps, meetAll g state t (.reduce p) (ps.map .reduce) = .ok (.reduce lowest) ∧
      ∀ q ∈ p :: ps, ¬ q < lowest := by
  induction ps generalizing p with
  | nil =>
      refine ⟨p, List.mem_singleton_self p, rfl, ?_⟩
      rintro q hq
      rw [List.mem_singleton.mp hq]
      exact Nat.lt_irrefl _
  | cons q ps ih =>
      obtain ⟨lowest, hmem, hmeet, hlowest⟩ := ih (if q < p then q else p)
      obtain ⟨insertion, hfirst⟩ := @meet_reduces g state t p q
      refine ⟨lowest, ?_, ?_, ?_⟩
      · rcases List.mem_cons.mp hmem with rfl | hmem
        · split <;> simp
        · exact List.mem_cons_of_mem _ (List.mem_cons_of_mem _ hmem)
      · rw [List.map_cons, meetAll, hfirst]
        exact hmeet
      · -- The lower of the first two is not below the lowest of all, so neither of the two is.
        have hboth : ¬ p < lowest ∧ ¬ q < lowest := by
          have := hlowest _ List.mem_cons_self
          simp only [Ident.lt_iff] at this ⊢
          split at this <;> omega
        intro r hr
        rcases List.mem_cons.mp hr with rfl | hr
        · exact hboth.1
        · rcases List.mem_cons.mp hr with rfl | hr
          · exact hboth.2
          · exact hlowest r (List.mem_cons_of_mem _ hr)

theorem settle_of_unknown (t : TerminalId) (next : StateId) {p : ProductionId}
    (hp : g.production? p = none) : settle g t next p = .error (.unknownProduction p) := by
  simp only [settle, hp]

theorem settle_of_known (t : TerminalId) (next : StateId) {p : ProductionId}
    (hp : (g.production? p).isSome) :
    settle g t next p = .ok (((g.resolution? t p).getD .shift).action next p,
      .ofMeeting p (g.resolution? t p)) := by
  obtain ⟨production, hp⟩ := Option.isSome_iff_exists.mp hp
  have hresolution : Resolution.between ((g.terminal? t).bind (·.precedence))
      production.precedence = g.resolution? t p := by
    rw [Grammar.resolution?, Grammar.precedenceOf, hp, Option.bind_some, Grammar.precedenceOn]
  simp only [settle, hp, hresolution]
  rcases g.resolution? t p with _ | _ | _ | _ <;> rfl

theorem meet_reduce_shift (state : StateId) (t : TerminalId) (next : StateId) {p : ProductionId}
    (hp : (g.production? p).isSome) :
    ∃ resolution insertion,
      Resolution.Declared (g.precedenceOn t) (g.precedenceOf p) resolution ∧
      meet g state t (.reduce p) (.shift next) = .ok (resolution.action next p, insertion) :=
  ⟨(g.resolution? t p).getD .shift, .ofMeeting p (g.resolution? t p),
    Resolution.declared_iff.mpr rfl, settle_of_known t next hp⟩

end ActionRow

def Proposal.actionsOn (t : TerminalId) : Proposal → List Action
  | .action u proposed => if u = t then [proposed] else []
  | .goto _ _ => []

namespace Filling

variable {g : Grammar} {state : StateId}

def Fits (f : Filling) : Proposal → Prop
  | .action t _ => t.index < f.actions.cells.size
  | .goto n _ => n.index < f.gotos.size

/-- From `f` to `f'` the actions proposed for each terminal have met in its cell. -/
structure Settles (g : Grammar) (state : StateId) (actions : TerminalId → List Action)
    (f f' : Filling) : Prop where
  size : f'.actions.cells.size = f.actions.cells.size
  gotos_size : f'.gotos.size = f.gotos.size
  cell : ∀ {t : TerminalId} {current : Action}, f.actions.get? t = some current →
    ∃ action, f'.actions.get? t = some action ∧
      ActionRow.meetAll g state t current (actions t) = .ok action

theorem exists_propose {proposal : Proposal} {f : Filling} (hfits : f.Fits proposal)
    (h : ∀ t current, f.actions.get? t = some current →
      ∃ action, ActionRow.meetAll g state t current (proposal.actionsOn t) = .ok action) :
    ∃ f', f.propose g state proposal = .ok f' ∧
      Settles g state (fun t => proposal.actionsOn t) f f' := by
  cases proposal with
  | goto n target =>
      refine ⟨{ f with gotos := f.gotos.setIfInBounds n.index (some target) }, ?_, rfl, ?_, ?_⟩
      · exact if_pos hfits
      · simp
      · exact fun hcurrent => ⟨_, hcurrent, rfl⟩
  | action t proposed =>
      obtain ⟨current, hcurrent⟩ : ∃ current, f.actions.get? t = some current :=
        ⟨_, Array.getElem?_eq_getElem hfits⟩
      obtain ⟨action, haction⟩ := h t current hcurrent
      rw [Proposal.actionsOn, if_pos rfl, ActionRow.meetAll_singleton] at haction
      obtain ⟨insertion, hmeet⟩ := haction
      have hinsert := ActionRow.insert_of_meet hcurrent hmeet
      obtain ⟨-, hsize, hother, current', action', hcurrent', haction', hmeet'⟩ :=
        ActionRow.insert_ok hinsert
      rw [hcurrent, Option.some.injEq] at hcurrent'
      subst hcurrent'
      refine ⟨{ f with
        actions := f.actions.put t action, insertions := f.insertions.push (t, insertion) }, ?_,
        hsize, rfl, fun {u old} hold => ?_⟩
      · simp only [propose, hinsert, Attempt.succeed]
      · by_cases hu : u = t
        · subst hu
          rw [hcurrent, Option.some.injEq] at hold
          subst hold
          refine ⟨action', haction', ?_⟩
          rw [Proposal.actionsOn, if_pos rfl, ActionRow.meetAll_singleton]
          exact ⟨insertion, hmeet'⟩
        · refine ⟨old, (hother u hu).trans hold, ?_⟩
          rw [Proposal.actionsOn, if_neg (Ne.symm hu)]
          rfl

theorem exists_proposeAll {proposals : List Proposal} {f : Filling}
    (hfits : ∀ proposal ∈ proposals, f.Fits proposal)
    (h : ∀ t current, f.actions.get? t = some current →
      ∃ action, ActionRow.meetAll g state t current (proposals.flatMap (·.actionsOn t)) =
        .ok action) :
    ∃ f', f.proposeAll g state proposals = ⟨.ok (), f'⟩ ∧
      Settles g state (fun t => proposals.flatMap (·.actionsOn t)) f f' := by
  induction proposals generalizing f with
  | nil => exact ⟨f, rfl, rfl, rfl, fun hcurrent => ⟨_, hcurrent, rfl⟩⟩
  | cons proposal proposals ih =>
      simp only [List.flatMap_cons, ActionRow.meetAll_append] at h
      obtain ⟨f₁, hpropose, hfirst⟩ := exists_propose (hfits proposal List.mem_cons_self)
        fun t current hcurrent => by
          obtain ⟨action, middle, hmiddle, -⟩ := h t current hcurrent
          exact ⟨middle, hmiddle⟩
      obtain ⟨f', hrest, hsettles⟩ := ih (f := f₁)
        (by
          intro other hother
          have := hfits other (List.mem_cons_of_mem _ hother)
          cases other with
          | action t action => exact Nat.lt_of_lt_of_eq this hfirst.size.symm
          | goto n target => exact Nat.lt_of_lt_of_eq this hfirst.gotos_size.symm)
        (by
          intro t current hcurrent
          have hlt := Nat.lt_of_lt_of_eq (Array.getElem?_eq_some_iff.mp hcurrent).1 hfirst.size
          have hold : f.actions.get? t = some _ := Array.getElem?_eq_getElem hlt
          obtain ⟨action, middle, hmiddle, hlast⟩ := h t _ hold
          obtain ⟨current', hcurrent', hmeet⟩ := hfirst.cell hold
          rw [hcurrent, Option.some.injEq] at hcurrent'
          rw [hmeet, Except.ok.injEq] at hmiddle
          exact ⟨action, hcurrent'.trans hmiddle ▸ hlast⟩)
      refine ⟨f', ?_, hsettles.size.trans hfirst.size,
        hsettles.gotos_size.trans hfirst.gotos_size, fun hcurrent => ?_⟩
      · rw [proposeAll, hpropose]
        exact hrest
      · obtain ⟨middle, hmiddle, hmeet⟩ := hfirst.cell hcurrent
        obtain ⟨action, haction, hmeet'⟩ := hsettles.cell hmiddle
        refine ⟨action, haction, ?_⟩
        rw [List.flatMap_cons, ActionRow.meetAll_append]
        exact ⟨middle, hmeet, hmeet'⟩

end Filling

end Lalr
