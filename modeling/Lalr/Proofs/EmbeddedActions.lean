import Lalr.Proofs.RefusedRules
import Lalr.Proofs.Registries
import Mathlib.Data.List.Nodup

namespace Lalr

theorem map_eq_range' {α : Type} {number : α → Nat} {before later : List α} {k : Nat}
    (h : ∀ i a, (before ++ later)[i]? = some a → number a = i + k) :
    later.map number = List.range' (before.length + k) later.length := by
  refine List.ext_getElem (by simp) fun i hi _ => ?_
  have hlater : i < later.length := by simpa using hi
  have hat : (before ++ later)[before.length + i]? = some later[i] := by
    rw [List.getElem?_append_right (Nat.le_add_right _ _), Nat.add_sub_cancel_left,
      List.getElem?_eq_getElem hlater]
  rw [List.getElem_map, List.getElem_range', h _ _ hat]
  omega

theorem filter_eq_singleton {α β : Type} [DecidableEq β] {f : α → β} {l : List α}
    (h : (l.map f).Nodup) {a : α} (ha : a ∈ l) : l.filter (fun b => f b = f a) = [a] := by
  induction l with
  | nil => cases ha
  | cons b l ih =>
      obtain ⟨hb, hrest⟩ := List.nodup_cons.mp h
      rcases List.mem_cons.mp ha with rfl | ha
      · have hnone : l.filter (fun b => f b = f a) = [] := by
          rw [List.filter_eq_nil_iff]
          intro c hc heq
          exact hb (List.mem_map.mpr ⟨c, hc, of_decide_eq_true heq⟩)
        rw [List.filter_cons_of_pos (by simp), hnone]
      · have hne : f b ≠ f a := fun heq => hb (heq ▸ List.mem_map_of_mem ha)
        rw [List.filter_cons_of_neg (by simpa using hne), ih hrest ha]

namespace RulePart

def code? : RulePart → Option String
  | action code => some code
  | symbol _ => none

/-- The second list is the first with each run of actions merged into one, a line for each. -/
inductive Merges : List RulePart → List RulePart → Prop
  | nil : Merges [] []
  | symbol (part : Part) {parts merged : List RulePart} (rest : Merges parts merged) :
      Merges (.symbol part :: parts) (.symbol part :: merged)
  -- The run ends where no action follows.
  | actions {codes : List String} {parts merged : List RulePart} (ne : codes ≠ [])
      (ends : ∀ code, parts.head? ≠ some (.action code)) (rest : Merges parts merged) :
      Merges (codes.map .action ++ parts) (.action ("\n".intercalate codes) :: merged)

theorem exists_run (parts : List RulePart) :
    ∃ (codes : List String) (later merged : List RulePart), parts = codes.map .action ++ later ∧
      (∀ code, later.head? ≠ some (.action code)) ∧ Merges later merged := by
  induction parts with
  | nil => exact ⟨[], [], [], rfl, by simp, .nil⟩
  | cons first parts ih =>
      obtain ⟨codes, later, merged, rfl, hends, hmerges⟩ := ih
      cases first with
      | action code => exact ⟨code :: codes, later, merged, rfl, hends, hmerges⟩
      | symbol part =>
          by_cases hcodes : codes = []
          · subst hcodes
            exact ⟨[], _, _, rfl, by simp, .symbol part hmerges⟩
          · exact ⟨[], _, _, rfl, by simp, .symbol part (.actions hcodes hends hmerges)⟩

theorem exists_merges (parts : List RulePart) : ∃ merged, Merges parts merged := by
  obtain ⟨codes, later, merged, rfl, hends, hmerges⟩ := exists_run parts
  by_cases hcodes : codes = []
  · subst hcodes
    exact ⟨merged, hmerges⟩
  · exact ⟨_, .actions hcodes hends hmerges⟩

theorem go_actions (code : String) (codes : List String) (done parts : List RulePart) :
    joinActions.go (.action code :: done) (codes.map .action ++ parts) =
      joinActions.go (.action ("\n".intercalate (code :: codes)) :: done) parts := by
  induction codes generalizing code with
  | nil => simp
  | cons next codes ih =>
      change joinActions.go (.action (code ++ "\n" ++ next) :: done)
        (codes.map .action ++ parts) = _
      rw [ih]
      cases codes <;> simp [String.append_assoc]

/-- What is done already does not matter, unless an action is to be joined to its last one. -/
theorem Merges.go_eq {parts merged : List RulePart} (h : Merges parts merged)
    {done : List RulePart} (hdone : (∀ code, done.head? ≠ some (.action code)) ∨
      ∀ code, parts.head? ≠ some (.action code)) :
    joinActions.go done parts = done.reverse ++ merged := by
  induction h generalizing done with
  | nil => simp [joinActions.go]
  | symbol part _ ih =>
      rw [joinActions.go, ih (.inl (by simp))]
      simp
  | @actions codes parts merged ne ends _ ih =>
      cases codes with
      | nil => exact absurd rfl ne
      | cons code codes =>
          -- the run starts with an action, so what is done must not end with one
          have hhead := hdone.resolve_right fun hparts => hparts code rfl
          have hfirst : joinActions.go done (.action code :: (codes.map .action ++ parts)) =
              joinActions.go (.action code :: done) (codes.map .action ++ parts) := by
            conv => lhs; unfold joinActions.go
            split
            · exact absurd rfl (hhead _)
            · rfl
          rw [List.map_cons, List.cons_append, hfirst, go_actions, ih (.inr ends)]
          simp

theorem Merges.eq_joinActions {parts merged : List RulePart} (h : Merges parts merged) :
    merged = joinActions parts := by
  have hgo := @go_eq parts merged h [] (.inl (by simp))
  exact hgo.symm

theorem merges_iff {parts merged : List RulePart} :
    Merges parts merged ↔ merged = joinActions parts := by
  refine ⟨Merges.eq_joinActions, ?_⟩
  rintro rfl
  obtain ⟨merged, hmerges⟩ := exists_merges parts
  exact hmerges.eq_joinActions ▸ hmerges

theorem joinActions_eq (parts : List RulePart) :
    joinActions parts = body parts ++ (closing parts).toList.map .action := by
  unfold body closing Draft.splitAction
  split
  · rename_i code hlast
    exact (List.dropLast_append_getLast? _ hlast).symm
  · simp

theorem closing_eq (parts : List RulePart) :
    closing parts = (joinActions parts).getLast?.bind code? := by
  unfold closing Draft.splitAction
  split
  · rename_i code hlast
    rw [hlast]
    rfl
  · rename_i hlast
    rcases hpart : (joinActions parts).getLast? with _ | part | code
    · rfl
    · rfl
    · exact absurd hpart (hlast code)

end RulePart

/-- A hidden nonterminal, and the production that runs an action in its place. -/
structure Host where
  symbol : NonterminalDecl
  rule : Rule

structure Host.Runs (host : Host) (base : ProductionId) (valueType : Option String) (offset : Nat)
    (code : String) : Prop where
  hidden : host.symbol.hidden = true
  valueType : host.symbol.valueType = valueType
  lhs : host.rule.lhs = host.symbol.id
  rhs : host.rule.rhs = #[]
  action : host.rule.action = some code
  precedence : host.rule.precedence = none
  origin : host.rule.origin = .embedded base offset

/-- How parts stand on the right side of `base` from `offset` on: symbols as they are, actions
through their hosts, which come in the same order. -/
inductive Places (base : ProductionId) (valueType : Option String) :
    Nat → List RulePart → List Part → List Host → Prop
  | nil (offset : Nat) : Places base valueType offset [] [] []
  | symbol {offset : Nat} (part : Part) {parts : List RulePart} {placed : List Part}
      {hosts : List Host} (rest : Places base valueType (offset + 1) parts placed hosts) :
      Places base valueType offset (.symbol part :: parts) (part :: placed) hosts
  | action {offset : Nat} {code : String} {parts : List RulePart} {placed : List Part} {host : Host}
      {hosts : List Host} (runs : host.Runs base valueType offset code)
      (rest : Places base valueType (offset + 1) parts placed hosts) :
      Places base valueType offset (.action code :: parts)
        (⟨.nonterminal host.symbol.id, none⟩ :: placed) (host :: hosts)

namespace Places

variable {base : ProductionId} {valueType : Option String} {offset : Nat} {parts : List RulePart}
  {placed : List Part} {hosts : List Host}

theorem length_hosts (h : Places base valueType offset parts placed hosts) :
    hosts.length = parts.countP RulePart.isAction := by
  induction h with
  | nil => rfl
  | symbol _ _ ih => rw [ih, List.countP_cons_of_neg (by simp [RulePart.isAction])]
  | action _ _ ih => rw [List.length_cons, ih, List.countP_cons_of_pos (by rfl)]

theorem exists_runs (h : Places base valueType offset parts placed hosts) {host : Host}
    (hhost : host ∈ hosts) : ∃ offset code, host.Runs base valueType offset code := by
  induction h with
  | nil => cases hhost
  | symbol _ _ ih => exact ih hhost
  | action runs _ ih =>
      rcases List.mem_cons.mp hhost with rfl | hhost
      · exact ⟨_, _, runs⟩
      · exact ih hhost

end Places

/-- The part of a rule that became `part`: the action of the host in whose place it stands, or else
the symbol as it is. -/
def RulePart.readBack (hosts : List Rule) (part : Part) : RulePart :=
  ((hosts.find? fun host => .nonterminal host.lhs = part.symbol).bind (·.action)).elim
    (.symbol part) .action

/-- The parts of a rule, read back from its production and those of its hosts. -/
def Rule.readBack (r : Rule) (hosts : List Rule) : List RulePart :=
  r.rhs.toList.map (RulePart.readBack hosts) ++ r.action.toList.map .action

theorem Places.map_readBack {base : ProductionId} {valueType : Option String} {offset : Nat}
    {parts : List RulePart} {placed : List Part} {hosts : List Host}
    (h : Places base valueType offset parts placed hosts) {rules : List Rule}
    (hhosts : ∀ host ∈ hosts, rules.find? (fun r => r.lhs = host.symbol.id) = some host.rule)
    (hsymbols : ∀ part, .symbol part ∈ parts → ∀ r ∈ rules, .nonterminal r.lhs ≠ part.symbol) :
    placed.map (RulePart.readBack rules) = parts := by
  induction h with
  | nil => rfl
  | symbol part _ ih =>
      have hnone : rules.find? (fun r => .nonterminal r.lhs = part.symbol) = none := by
        simpa using hsymbols part List.mem_cons_self
      rw [List.map_cons, RulePart.readBack, hnone,
        ih hhosts fun part hpart => hsymbols part (List.mem_cons_of_mem _ hpart)]
      rfl
  | @action _ code _ _ host _ runs _ ih =>
      have hfound := hhosts host List.mem_cons_self
      simp only [List.map_cons, RulePart.readBack, Symbol.nonterminal.injEq, hfound,
        Option.bind_some, runs.action, Option.elim_some]
      rw [ih (fun host hhost => hhosts host (List.mem_cons_of_mem _ hhost))
        fun part hpart => hsymbols part (List.mem_cons_of_mem _ hpart)]

namespace Draft

/-- The second draft is the first with these hosts, and after them the rules `last`. -/
structure Gains (hosts : List Host) (last : List Rule) (d d' : Draft) : Prop where
  terminals : d'.terminals = d.terminals
  nonterminals : d'.nonterminals.entries.toList =
    d.nonterminals.entries.toList ++ hosts.map Host.symbol
  rules : d'.rules.toList = d.rules.toList ++ (hosts.map Host.rule ++ last)
  start : d'.start = d.start
  embedded : d'.embedded = d.embedded + hosts.length
  nextLevel : d'.nextLevel = d.nextLevel

/-- The host that comes into the draft with the production `r`. -/
def hostOf (d : Draft) (valueType : Option String) (r : Rule) : Host :=
  ⟨⟨r.lhs, "NT$" ++ toString d.embedded, valueType, true⟩, r⟩

theorem Gains.withHost {hosts : List Host} {d d' : Draft} {valueType : Option String} {r : Rule}
    {last : List Rule} (h : Gains hosts last (d.withHost valueType r) d') :
    Gains (d.hostOf valueType r :: hosts) last d d' where
  terminals := h.terminals
  nonterminals := by simp [h.nonterminals, Draft.withHost, hostOf, Roster.push]
  rules := by simp [h.rules, Draft.withHost, hostOf]
  start := h.start
  embedded := by
    rw [h.embedded, List.length_cons, Nat.add_comm hosts.length, ← Nat.add_assoc]
    rfl
  nextLevel := h.nextLevel

theorem gains_hostActions {base : ProductionId} {valueType : Option String} {d d' : Draft}
    {rhs rhs' : Array Part} {parts : List RulePart}
    (hrules : d.rules.size + parts.countP RulePart.isAction < 65535)
    (h : d.hostActions base valueType rhs parts = .succeed rhs' d') :
    ∃ placed hosts, Places base valueType rhs.size parts placed hosts ∧
      rhs'.toList = rhs.toList ++ placed ∧ Gains hosts [] d d' := by
  induction parts generalizing d rhs with
  | nil =>
      cases h
      exact ⟨[], [], .nil _, by simp, by constructor <;> simp⟩
  | cons part parts ih =>
      cases part with
      | symbol part =>
          rw [List.countP_cons_of_neg (by simp [RulePart.isAction])] at hrules
          obtain ⟨placed, hosts, hplaces, hrhs, hgains⟩ := ih hrules h
          rw [Array.size_push] at hplaces
          exact ⟨part :: placed, hosts, .symbol part hplaces, by simp [hrhs], hgains⟩
      | action code =>
          rw [List.countP_cons_of_pos (by rfl)] at hrules
          by_cases hn : d.nonterminals.size < 65535
          · obtain ⟨r, hempty, haction, hprecedence, horigin, heq⟩ :=
              hostAction_of_lt hn (by omega) base valueType rhs.size code
            rw [hostActions, heq] at h
            obtain ⟨placed, hosts, hplaces, hrhs, hgains⟩ :=
              @ih (d.withHost valueType r) (rhs.push ⟨.nonterminal r.lhs, none⟩)
                (by simp [withHost]; omega) h
            rw [Array.size_push] at hplaces
            have hruns : (d.hostOf valueType r).Runs base valueType rhs.size code :=
              ⟨rfl, rfl, rfl, hempty, haction, hprecedence, horigin⟩
            exact ⟨_, _, .action hruns hplaces, by simp [hrhs, hostOf], hgains.withHost⟩
          · rw [hostActions, hostAction_of_full hn] at h
            cases h

theorem addRule_eq_succeed {d d' : Draft} {lhs : NonterminalId} {rhs : Array Part}
    {action : Option String} {precedence : Option Precedence} {origin : Origin} {id : ProductionId}
    (h : d.addRule lhs rhs action precedence origin = .succeed id d') :
    id.index = d.rules.size + 1 ∧ ∃ uses, d' = { d with
      rules := d.rules.push ⟨id, lhs, rhs, action, precedence, origin⟩, uses } := by
  unfold addRule at h
  split at h
  · cases h
  · rename_i id' hnext
    cases h
    exact ⟨(Ident.next?_eq_some hnext).1, _, rfl⟩

/-- The second draft is the first with these hosts, and after them the rule `r`. -/
abbrev Adopts (hosts : List Host) (r : Rule) (d d' : Draft) : Prop :=
  Gains hosts [r] d d'

theorem adopts_of_declareRule {d d' : Draft} {lhs : NonterminalId} {parts : List RulePart}
    {precedence : Option Precedence} {base : ProductionId}
    (h : d.declareRule lhs parts precedence = .succeed base d') :
    d.Admits lhs parts ∧ ∃ left rhs hosts, d.nonterminals.entries[lhs.index]? = some left ∧
      Places base left.valueType 0 (RulePart.body parts) rhs.toList hosts ∧
      Adopts hosts ⟨base, lhs, rhs, RulePart.closing parts, precedence, .declared⟩ d d' := by
  rcases declareRule_cases d lhs parts precedence with
    ⟨-, e, heq⟩ | ⟨hadmits, base', left, hleft, hbase, heq⟩
  · rw [heq] at h
    cases h
  · have hle := hadmits.base_le
    have hrules : d.rules.size + (RulePart.body parts).countP RulePart.isAction < 65535 := by
      rw [← RulePart.hosted]
      omega
    rw [heq] at h
    rcases hmade : d.hostActions base' left.valueType #[] (RulePart.body parts) with ⟨e | rhs, d''⟩
    · rw [hmade] at h
      cases h
    · rw [hmade] at h
      obtain ⟨placed, hosts, hplaces, hrhs, hgains⟩ := gains_hostActions hrules hmade
      obtain ⟨hindex, uses, rfl⟩ := addRule_eq_succeed h
      -- the number that the hosts were told is the one that the rule gets
      obtain rfl : base = base' := by
        apply Ident.ext_index
        rw [hindex, hbase, ← Array.length_toList, hgains.rules, List.append_nil,
          List.length_append, List.length_map,
          hplaces.length_hosts, ← RulePart.hosted, Array.length_toList]
        omega
      rw [show placed = rhs.toList by simpa using hrhs.symm] at hplaces
      refine ⟨hadmits, left, rhs, hosts, hleft, hplaces, hgains.terminals, hgains.nonterminals, ?_,
        hgains.start, hgains.embedded, hgains.nextLevel⟩
      simp [hgains.rules]

/-- What becomes of a rule with the parts `merged`: the production `r`, and the hosts of all actions
but the last part. -/
structure Splits (d : Draft) (merged : List RulePart) (valueType : Option String)
    (hosts : List Host) (r : Rule) (d' : Draft) : Prop where
  action : r.action = merged.getLast?.bind RulePart.code?
  places : ∃ body, merged = body ++ r.action.toList.map .action ∧
    Places r.id valueType 0 body r.rhs.toList hosts
  fresh : ∀ host ∈ hosts, d.declares (.nonterminal host.symbol.id) = false
  -- No other production has the symbol of a host on the left.
  only : ∀ host ∈ hosts, d'.rules.toList.filter (·.lhs = host.symbol.id) = [host.rule]
  numbers : (hosts.map Host.rule ++ [r]).map (·.id.index) =
    List.range' (d.rules.size + 1) (hosts.length + 1)
  adopts : Adopts hosts r d d'
  uses : ∀ symbol, d'.uses.of symbol = d.uses.of symbol +
    ((hosts.map Host.rule ++ [r]).flatMap Rule.mentions).count symbol
  readBack : r.readBack (hosts.map Host.rule) = merged

namespace Adopts

variable {hosts : List Host} {r : Rule} {d d' : Draft}

theorem numbers (h : Adopts hosts r d d') (hd' : d'.Sound) :
    (hosts.map Host.rule ++ [r]).map (·.id.index) =
      List.range' (d.rules.size + 1) (hosts.length + 1) := by
  have hrange := @map_eq_range' Rule (·.id.index) d.rules.toList
    (hosts.map Host.rule ++ [r]) 1 fun i rule hrule => by
      rw [← h.rules, Array.getElem?_toList] at hrule
      exact (hd'.rule hrule).1
  simpa using hrange

theorem symbols (h : Adopts hosts r d d') (hd' : d'.Sound) :
    hosts.map (·.symbol.id.index) = List.range' d.nonterminals.size hosts.length := by
  have hrange := @map_eq_range' NonterminalDecl (·.id.index) d.nonterminals.entries.toList
    (hosts.map Host.symbol) 0 fun i decl hdecl => by
      rw [← h.nonterminals, Array.getElem?_toList] at hdecl
      exact hd'.nonterminal_id i decl hdecl
  simpa [Function.comp_def, Roster.size] using hrange

variable (hlhs : ∀ host ∈ hosts, host.rule.lhs = host.symbol.id)

theorem fresh (h : Adopts hosts r d d') (hd' : d'.Sound) {host : Host} (hhost : host ∈ hosts) :
    d.declares (.nonterminal host.symbol.id) = false := by
  have hmem : host.symbol.id.index ∈ hosts.map (·.symbol.id.index) :=
    List.mem_map_of_mem hhost
  rw [h.symbols hd', List.mem_range'_1] at hmem
  exact decide_eq_false (Nat.not_lt_of_le hmem.1)

include hlhs in
theorem filter_hosts (h : Adopts hosts r d d') (hd' : d'.Sound) {host : Host}
    (hhost : host ∈ hosts) :
    (hosts.map Host.rule).filter (·.lhs = host.symbol.id) = [host.rule] := by
  have hids : (hosts.map Host.rule).map (·.lhs.index) = hosts.map (·.symbol.id.index) := by
    rw [List.map_map]
    exact List.map_congr_left fun host hhost => congrArg Ident.index (hlhs host hhost)
  have hnodup : ((hosts.map Host.rule).map Rule.lhs).Nodup := by
    apply List.Nodup.of_map Ident.index
    rw [List.map_map]
    change ((hosts.map Host.rule).map (·.lhs.index)).Nodup
    rw [hids, h.symbols hd']
    exact List.nodup_range'
  rw [← hlhs host hhost]
  exact filter_eq_singleton hnodup (List.mem_map_of_mem hhost)

include hlhs in
/-- What was there before does not have the symbol of a host on the left, and neither does the rule
itself. -/
theorem filter_rules (h : Adopts hosts r d d') (hd : d.Sound) (hd' : d'.Sound)
    (hr : d.declares (.nonterminal r.lhs) = true) {host : Host} (hhost : host ∈ hosts) :
    d'.rules.toList.filter (·.lhs = host.symbol.id) = [host.rule] := by
  have hne : ∀ r : Rule, d.declares (.nonterminal r.lhs) = true → r.lhs ≠ host.symbol.id := by
    intro r hdeclared heq
    rw [heq, h.fresh hd' hhost] at hdeclared
    cases hdeclared
  have hold : d.rules.toList.filter (·.lhs = host.symbol.id) = [] := by
    rw [List.filter_eq_nil_iff]
    intro rule hrule heq
    obtain ⟨i, hi⟩ := Array.getElem?_of_mem (Array.mem_toList_iff.mp hrule)
    exact hne rule (decide_eq_true (hd.rule hi).2.2) (of_decide_eq_true heq)
  rw [h.rules, List.filter_append, List.filter_append, h.filter_hosts hlhs hd' hhost, hold,
    List.filter_cons_of_neg (by simpa using hne r hr)]
  rfl

include hlhs in
/-- Symbols that were declared before are not those of hosts, so each part is found again. -/
theorem map_readBack (h : Adopts hosts r d d') (hd' : d'.Sound) {base : ProductionId}
    {valueType : Option String} {offset : Nat} {parts : List RulePart} {placed : List Part}
    (hplaces : Places base valueType offset parts placed hosts)
    (hdeclared : ∀ part, .symbol part ∈ parts → d.declares part.symbol = true) :
    placed.map (RulePart.readBack (hosts.map Host.rule)) = parts := by
  refine hplaces.map_readBack (fun host hhost => ?_) fun part hpart rule hrule heq => ?_
  · rw [← List.head?_filter, h.filter_hosts hlhs hd' hhost]
    rfl
  · obtain ⟨host, hhost, rfl⟩ := List.mem_map.mp hrule
    have hknown := hdeclared part hpart
    rw [← heq, hlhs host hhost, h.fresh hd' hhost] at hknown
    cases hknown

end Adopts

/-- A rule that is accepted loses nothing: its parts with the runs of actions merged are those that
its production and the hosts give back, and nothing else comes in. -/
theorem splits_of_declareRule {declarations : List Declaration} {lhs : NonterminalId}
    {parts : List RulePart} {precedence : Option Precedence} {base : ProductionId} {d d' : Draft}
    (hd : initial.declareAll declarations = d)
    (h : d.declareRule lhs parts precedence = .succeed base d') :
    ∃ left merged hosts r, d.nonterminals.entries[lhs.index]? = some left ∧
      RulePart.Merges parts merged ∧ r.id = base ∧ r.lhs = lhs ∧ r.precedence = precedence ∧
      r.origin = .declared ∧ d.Splits merged left.valueType hosts r d' := by
  have hd' : initial.declareAll (declarations ++ [.rule lhs parts precedence]) = d' := by
    rw [declareAll_append, hd]
    change (d.declare (.rule lhs parts precedence)).state = d'
    rw [declare, h]
    rfl
  have hsound : d.Sound := hd ▸ sound_declareAll declarations
  have hsound' : d'.Sound := hd' ▸ sound_declareAll _
  have hcounted : d.Counted := hd ▸ counted_declareAll declarations
  have hcounted' : d'.Counted := hd' ▸ counted_declareAll _
  obtain ⟨hadmits, left, rhs, hosts, hleft, hplaces, hadopts⟩ := adopts_of_declareRule h
  have hlhs : ∀ host ∈ hosts, host.rule.lhs = host.symbol.id := by
    intro host hhost
    obtain ⟨_, _, hruns⟩ := hplaces.exists_runs hhost
    exact hruns.lhs
  refine ⟨left, RulePart.joinActions parts, hosts,
    ⟨base, lhs, rhs, RulePart.closing parts, precedence, .declared⟩, hleft,
    RulePart.merges_iff.mpr rfl, rfl, rfl, rfl, rfl, ?_⟩
  constructor
  case action => exact RulePart.closing_eq parts
  case places => exact ⟨_, RulePart.joinActions_eq parts, hplaces⟩
  case fresh => exact fun host hhost => hadopts.fresh hsound' hhost
  case only =>
    exact fun host hhost => hadopts.filter_rules hlhs hsound hsound' hadmits.lhs_declared hhost
  case numbers => exact hadopts.numbers hsound'
  case adopts => exact hadopts
  case uses =>
    intro symbol
    rw [hcounted'.of, hadopts.rules, List.flatMap_append, List.count_append, ← hcounted.of]
  case readBack =>
    have hparts := hadopts.map_readBack hlhs hsound' hplaces fun part hpart =>
      hadmits.symbols part (RulePart.symbol_mem_joinActions.mp (mem_of_splitAction hpart))
    rw [Rule.readBack, hparts]
    exact (RulePart.joinActions_eq parts).symm

end Draft

def Grammar.typed : List Declaration :=
  Grammar.oneRule ++ [.terminal "y" none, .valueType (.nonterminal (.nth 1)) "Node"]

/-- The parts of the rule `S ::= x {enter} {log} y {leave}`, where `x` has a label. -/
def RulePart.guarded : List RulePart :=
  [.symbol ⟨.terminal (.nth 2), some "a"⟩, .action "enter", .action "log", .terminal 3,
    .action "leave"]

theorem Draft.splits_of_declareRule_typed :
    ∃ base d', (initial.declareAll Grammar.typed).declareRule (.nth 1) RulePart.guarded none =
        .succeed base d' ∧
      ∃ host r, (initial.declareAll Grammar.typed).Splits
          [.symbol ⟨.terminal (.nth 2), some "a"⟩, .action "enter\nlog", .terminal 3,
            .action "leave"] (some "Node") [host] r d' ∧
        r.id = base ∧ r.lhs = .nth 1 ∧
        r.rhs = #[⟨.terminal (.nth 2), some "a"⟩, ⟨.nonterminal host.symbol.id, none⟩,
          ⟨.terminal (.nth 3), none⟩] := by
  have hok : ((initial.declareAll Grammar.typed).declareRule (.nth 1) RulePart.guarded
      none).outcome.isOk = true := by
    decide +kernel
  have htype : (initial.declareAll Grammar.typed).nonterminals.entries[1]?.map (·.valueType) =
      some (some "Node") := by
    decide +kernel
  rcases hmade : (initial.declareAll Grammar.typed).declareRule (.nth 1) RulePart.guarded none with
    ⟨e | base, d'⟩
  · rw [hmade] at hok
    cases hok
  · obtain ⟨left, merged, hosts, r, hleft, hmerges, hid, hlhs, -, -, hsplits⟩ :=
      splits_of_declareRule rfl hmade
    obtain rfl : merged = [.symbol ⟨.terminal (.nth 2), some "a"⟩, .action "enter\nlog",
        .terminal 3, .action "leave"] := by
      rw [RulePart.merges_iff.mp hmerges]
      decide +kernel
    rw [show (initial.declareAll Grammar.typed).nonterminals.entries[1]? = some left from hleft,
      Option.map_some, Option.some.injEq] at htype
    rw [htype] at hsplits
    have haction : r.action = some "leave" := hsplits.action
    obtain ⟨body, hbody, hplaces⟩ := hsplits.places
    obtain rfl : body = [.symbol ⟨.terminal (.nth 2), some "a"⟩, .action "enter\nlog",
        .terminal 3] := by
      rw [haction] at hbody
      exact (List.append_cancel_right hbody).symm
    generalize hrhs : r.rhs.toList = placed at hplaces
    cases hplaces with
    | symbol _ hplaces =>
        cases hplaces with
        | @action _ _ _ _ host _ _ hplaces =>
            cases hplaces with
            | symbol _ hplaces =>
                cases hplaces with
                | nil =>
                    exact ⟨base, d', rfl, host, r, hsplits, hid, hlhs, Array.toList_inj.mp hrhs⟩

end Lalr
