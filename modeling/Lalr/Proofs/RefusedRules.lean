import Lalr.Proofs.DefinedGrammar

namespace Lalr

namespace Ident

variable {kind : Kind} {count : Nat}

theorem next?_of_lt (h : count < 65535) :
    next? kind count = some ⟨count, Nat.lt_succ_of_lt h⟩ :=
  dif_pos h

theorem next?_of_not_lt (h : ¬ count < 65535) : next? kind count = none :=
  dif_neg h

end Ident

namespace RulePart

def body (parts : List RulePart) : List RulePart :=
  (Draft.splitAction (joinActions parts)).1

def closing (parts : List RulePart) : Option String :=
  (Draft.splitAction (joinActions parts)).2

/-- How many actions of a rule need a host. -/
def hosted (parts : List RulePart) : Nat :=
  (body parts).countP isAction

theorem symbol_mem_go {part : Part} {before parts : List RulePart} :
    .symbol part ∈ joinActions.go before parts ↔ .symbol part ∈ before ∨ .symbol part ∈ parts := by
  induction parts generalizing before with
  | nil => simp [joinActions.go]
  | cons first parts ih =>
      cases first with
      | symbol _ => simp [joinActions.go, ih, or_assoc, or_left_comm]
      | action code =>
          unfold joinActions.go
          split <;> simp [ih]

theorem symbol_mem_joinActions {part : Part} {parts : List RulePart} :
    .symbol part ∈ joinActions parts ↔ .symbol part ∈ parts := by
  rw [joinActions, symbol_mem_go]
  simp

end RulePart

namespace Draft

theorem undeclared?_eq_none {d : Draft} {parts : List RulePart} :
    d.undeclared? parts = none ↔ ∀ part, .symbol part ∈ parts → d.declares part.symbol = true := by
  refine ⟨fun h _ => declares_of_undeclared? h, fun h => ?_⟩
  rw [undeclared?, Option.map_eq_none_iff, List.findSome?_eq_none_iff]
  intro part hpart
  cases part with
  | symbol part => simp [RulePart.part?, h part hpart]
  | action code => rfl

/-- What is made sure of before a rule changes the draft. -/
structure Admits (d : Draft) (lhs : NonterminalId) (parts : List RulePart) : Prop where
  lhs_ne : lhs ≠ .start
  lhs_declared : d.declares (.nonterminal lhs) = true
  symbols : ∀ part, .symbol part ∈ parts → d.declares part.symbol = true
  fresh : RulePart.hosted parts = 0 →
    d.hasRule lhs (((RulePart.body parts).filterMap RulePart.part?).map Part.symbol).toArray = false
  base_le : d.rules.size + 1 + RulePart.hosted parts ≤ 65535

/-- A rule is refused as it comes, or it is admitted and its actions are moved to hosts. -/
theorem declareRule_cases (d : Draft) (lhs : NonterminalId) (parts : List RulePart)
    (precedence : Option Precedence) :
    (¬ d.Admits lhs parts ∧ ∃ e, d.declareRule lhs parts precedence = .fail e d) ∨
      d.Admits lhs parts ∧ ∃ base decl, d.nonterminals.entries[lhs.index]? = some decl ∧
        base.index = d.rules.size + 1 + RulePart.hosted parts ∧
        d.declareRule lhs parts precedence =
          (hostActions base decl.valueType d #[] (RulePart.body parts)).andThen
            fun rhs d => d.addRule lhs rhs (RulePart.closing parts) precedence .declared := by
  unfold declareRule
  split
  · rename_i hnone
    refine .inl ⟨fun h => ?_, _, rfl⟩
    have hlt := h.lhs_declared
    rw [declares, decide_eq_true_eq] at hlt
    exact absurd hlt (by simpa [Roster.size] using hnone)
  · rename_i decl hdecl
    split
    · rename_i hstart
      exact .inl ⟨fun h => h.lhs_ne hstart, _, rfl⟩
    · rename_i hne
      simp only
      split
      · rename_i symbol hsymbol
        refine .inl ⟨fun h => ?_, _, rfl⟩
        rw [undeclared?_eq_none.mpr fun part hpart =>
          h.symbols part (RulePart.symbol_mem_joinActions.mp hpart)] at hsymbol
        cases hsymbol
      · rename_i hundeclared
        split
        · rename_i hduplicate
          refine .inl ⟨fun h => ?_, _, rfl⟩
          exact Bool.false_ne_true ((h.fresh hduplicate.1).symm.trans hduplicate.2)
        · rename_i hfresh
          split
          · rename_i hbase
            refine .inr ⟨⟨hne, ?_, ?_, ?_, Nat.le_of_lt_succ hbase⟩, ⟨_, hbase⟩, decl, hdecl, rfl,
              rfl⟩
            · exact decide_eq_true (Array.getElem?_eq_some_iff.mp hdecl).1
            · exact fun part hpart => undeclared?_eq_none.mp hundeclared part
                (RulePart.symbol_mem_joinActions.mpr hpart)
            · exact fun hzero => Bool.eq_false_iff.mpr fun hrule => hfresh ⟨hzero, hrule⟩
          · rename_i hbase
            exact .inl ⟨fun h => hbase (Nat.lt_succ_of_le h.base_le), _, rfl⟩

def withHost (d : Draft) (valueType : Option String) (r : Rule) : Draft :=
  { d with
    nonterminals := d.nonterminals.push ⟨r.lhs, "NT$" ++ toString d.embedded, valueType, true⟩
    rules := d.rules.push r
    uses := d.uses.addNonterminal.noteRule r
    embedded := d.embedded + 1 }

/-- The second draft is the first with `k` more hosts for actions of `base`. -/
inductive Hosting (base : ProductionId) : Nat → Draft → Draft → Prop
  | refl (d : Draft) : Hosting base 0 d d
  | head {d d' : Draft} {k : Nat} {r : Rule} (valueType : Option String) (rhs : r.rhs = #[])
      (origin : ∃ offset, r.origin = .embedded base offset)
      (rest : Hosting base k (d.withHost valueType r) d') : Hosting base (k + 1) d d'

theorem hostAction_of_full {d : Draft} (h : ¬ d.nonterminals.size < 65535) (base : ProductionId)
    (valueType : Option String) (offset : Nat) (code : String) :
    d.hostAction base valueType offset code = .fail .tooManySymbols d := by
  unfold hostAction addNonterminal
  rw [Ident.next?_of_not_lt h]
  rfl

theorem hostAction_of_lt {d : Draft} (hn : d.nonterminals.size < 65535)
    (hr : d.rules.size + 1 < 65535) (base : ProductionId) (valueType : Option String)
    (offset : Nat) (code : String) :
    ∃ r : Rule, r.rhs = #[] ∧ r.action = some code ∧ r.precedence = none ∧
      r.origin = .embedded base offset ∧
      d.hostAction base valueType offset code = .succeed r.lhs (d.withHost valueType r) := by
  refine ⟨⟨⟨d.rules.size + 1, by omega⟩, ⟨d.nonterminals.size, by omega⟩, #[], some code, none,
    .embedded base offset⟩, rfl, rfl, rfl, rfl, ?_⟩
  unfold hostAction addNonterminal addRule
  rw [Ident.next?_of_lt hn]
  simp only [Attempt.andThen_succeed, Ident.next?_of_lt hr]
  rfl

/-- How many nonterminals can still be declared. -/
def room (d : Draft) : Nat :=
  65535 - d.nonterminals.size

/-- Hosts come in until nonterminals run out.  Productions do not, as the number of the rule to come
is above those of its hosts. -/
theorem hosting_hostActions (base : ProductionId) (valueType : Option String) {d : Draft}
    (rhs : Array Part) {parts : List RulePart}
    (hrules : d.rules.size + parts.countP RulePart.isAction < 65535) :
    ∃ d', Hosting base (min (parts.countP RulePart.isAction) d.room) d d' ∧
      (parts.countP RulePart.isAction ≤ d.room ∧
          (∃ rhs', d.hostActions base valueType rhs parts = .succeed rhs' d') ∨
        d.room < parts.countP RulePart.isAction ∧
          d.hostActions base valueType rhs parts = .fail .tooManySymbols d') := by
  induction parts generalizing d rhs with
  | nil => exact ⟨d, by simpa using .refl d, .inl ⟨Nat.zero_le _, rhs, rfl⟩⟩
  | cons part parts ih =>
      cases part with
      | symbol part =>
          rw [List.countP_cons_of_neg (by simp [RulePart.isAction])] at hrules ⊢
          exact ih _ hrules
      | action code =>
          rw [List.countP_cons_of_pos (by rfl)] at hrules ⊢
          by_cases hn : d.nonterminals.size < 65535
          · obtain ⟨r, hrhs, -, -, horigin, heq⟩ := hostAction_of_lt hn (by omega) base valueType
              rhs.size code
            have hroom : d.room = (d.withHost valueType r).room + 1 := by
              rw [room, room, withHost, Roster.size_push]
              omega
            obtain ⟨d', hhosting, hresult⟩ := @ih (d.withHost valueType r)
              (rhs.push ⟨.nonterminal r.lhs, none⟩) (by simp [withHost]; omega)
            rw [hroom, Nat.add_min_add_right, Nat.add_le_add_iff_right, Nat.add_lt_add_iff_right,
              hostActions, heq]
            exact ⟨d', .head valueType hrhs ⟨_, horigin⟩ hhosting, hresult⟩
          · have hroom : d.room = 0 := Nat.sub_eq_zero_of_le (Nat.le_of_not_lt hn)
            rw [hroom, Nat.min_zero, hostActions, hostAction_of_full hn]
            exact ⟨d, .refl d, .inr ⟨Nat.succ_pos _, rfl⟩⟩

theorem Hosting.sizes {base : ProductionId} {k : Nat} {d d' : Draft} (h : Hosting base k d d') :
    d'.nonterminals.size = d.nonterminals.size + k ∧ d'.rules.size = d.rules.size + k := by
  induction h with
  | refl d => exact ⟨rfl, rfl⟩
  | head valueType _ _ _ ih =>
      rw [ih.1, ih.2, withHost, Roster.size_push, Array.size_push]
      omega

/-- What `k` hosts for actions of `base` are to a draft: hidden nonterminals after all others, and
their empty productions. -/
structure Hosted (base : ProductionId) (k : Nat) (d d' : Draft) : Prop where
  terminals : d'.terminals = d.terminals ∧ d'.uses.terminals = d.uses.terminals
  start : d'.start = d.start
  nextLevel : d'.nextLevel = d.nextLevel
  embedded : d'.embedded = d.embedded + k
  nonterminals : ∃ hosts : List NonterminalDecl, hosts.length = k ∧
    d'.nonterminals.entries = d.nonterminals.entries ++ hosts ∧ ∀ n ∈ hosts, n.hidden = true
  rules : ∃ hosts : List Rule, hosts.length = k ∧ d'.rules = d.rules ++ hosts ∧
    ∀ r ∈ hosts, r.rhs = #[] ∧ ∃ offset, r.origin = .embedded base offset

theorem Hosting.hosted {base : ProductionId} {k : Nat} {d d' : Draft} (h : Hosting base k d d') :
    Hosted base k d d' := by
  induction h with
  | refl d => exact ⟨⟨rfl, rfl⟩, rfl, rfl, rfl, ⟨[], by simp⟩, ⟨[], by simp⟩⟩
  | @head d d' k r valueType rhs origin _ ih =>
      obtain ⟨hterminals, hstart, hlevel, hembedded, ⟨nonterminals, hcount, hentries, hhidden⟩,
        ⟨rules, hcount', hrules, hempty⟩⟩ := ih
      refine ⟨⟨hterminals.1, hterminals.2.trans ?_⟩, hstart, hlevel, ?_,
        ⟨⟨r.lhs, "NT$" ++ toString d.embedded, valueType, true⟩ :: nonterminals, ?_, ?_, ?_⟩,
        ⟨r :: rules, ?_, ?_, ?_⟩⟩
      · simp [withHost, UseCounts.noteRule, UseCounts.note, UseCounts.addNonterminal, rhs]
      · simp only [hembedded, withHost]
        omega
      · rw [List.length_cons, hcount]
      · simp [hentries, withHost, Roster.push]
      · rintro n (_ | ⟨_, hn⟩)
        · rfl
        · exact hhidden n hn
      · rw [List.length_cons, hcount']
      · simp [hrules, withHost]
      · rintro r' (_ | ⟨_, hr'⟩)
        · exact ⟨rhs, origin⟩
        · exact hempty r' hr'

theorem Admits.hosting {d : Draft} {lhs : NonterminalId} {parts : List RulePart}
    (h : d.Admits lhs parts) (precedence : Option Precedence) :
    ∃ base d', base.index = d.rules.size + 1 + RulePart.hosted parts ∧
      Hosting base (min (RulePart.hosted parts) d.room) d d' ∧
      (RulePart.hosted parts ≤ d.room ∧ base.index < 65535 ∧
          (∃ p d'', d.declareRule lhs parts precedence = .succeed p d'') ∨
        (d.room < RulePart.hosted parts ∨ base.index = 65535) ∧
          d.declareRule lhs parts precedence =
            .fail (if d.room < RulePart.hosted parts then .tooManySymbols else .tooManyProductions)
              d') := by
  rcases declareRule_cases d lhs parts precedence with ⟨hnot, -⟩ | ⟨-, base, decl, -, hbase, heq⟩
  · exact absurd h hnot
  · have hle := h.base_le
    have hrules : d.rules.size + (RulePart.body parts).countP RulePart.isAction < 65535 := by
      rw [← RulePart.hosted]
      omega
    obtain ⟨d', hhosting, hresult⟩ := hosting_hostActions base decl.valueType #[] hrules
    rw [← RulePart.hosted] at hhosting hresult
    refine ⟨base, d', hbase, hhosting, ?_⟩
    rw [heq]
    rcases hresult with ⟨henough, rhs', hok⟩ | ⟨hfew, hfail⟩
    · have hsize := hhosting.sizes.2
      rw [Nat.min_eq_left henough] at hsize
      rw [hok, Attempt.andThen_succeed, addRule, if_neg (Nat.not_lt_of_le henough)]
      by_cases hlt : base.index < 65535
      · rw [Ident.next?_of_lt (by omega)]
        exact .inl ⟨henough, hlt, _, _, rfl⟩
      · rw [Ident.next?_of_not_lt (by omega)]
        exact .inr ⟨.inr (by omega), rfl⟩
    · rw [hfail, if_pos hfew]
      exact .inr ⟨.inl hfew, rfl⟩

/-- A rule that passes all checks and gets hosts, though either nonterminals run out before all of
its actions have theirs, or its own number is the last one. -/
structure Strands (d : Draft) (lhs : NonterminalId) (parts : List RulePart) : Prop where
  admits : d.Admits lhs parts
  hosted_pos : 0 < RulePart.hosted parts
  room_pos : 0 < d.room
  runs_out : d.room < RulePart.hosted parts ∨ d.rules.size + 1 + RulePart.hosted parts = 65535

/-- A rule that strands is refused, though some of its actions got hosts. -/
theorem Strands.refused {d : Draft} {lhs : NonterminalId} {parts : List RulePart}
    (h : d.Strands lhs parts) (precedence : Option Precedence) :
    ∃ base d', Hosting base (min (RulePart.hosted parts) d.room) d d' ∧
      d.declareRule lhs parts precedence =
        .fail (if d.room < RulePart.hosted parts then .tooManySymbols else .tooManyProductions)
          d' := by
  obtain ⟨base, d', hbase, hhosting, ⟨henough, hlt, -⟩ | ⟨-, hfail⟩⟩ :=
    h.admits.hosting precedence
  · have hout := h.runs_out
    omega
  · exact ⟨base, d', hhosting, hfail⟩

/-- A rule that was refused left no hosts, or it strands and left as many as there were
nonterminals. -/
theorem refused_cases {d d' : Draft} {lhs : NonterminalId} {parts : List RulePart}
    {precedence : Option Precedence} {e : DefinitionError}
    (h : d.declareRule lhs parts precedence = .fail e d') :
    ¬ d.Strands lhs parts ∧ d' = d ∨
      d.Strands lhs parts ∧
        e = (if d.room < RulePart.hosted parts then .tooManySymbols else .tooManyProductions) ∧
        ∃ base, base.index = d.rules.size + 1 + RulePart.hosted parts ∧
          Hosting base (min (RulePart.hosted parts) d.room) d d' := by
  rcases declareRule_cases d lhs parts precedence with ⟨hnot, e', heq⟩ | ⟨hadmits, -⟩
  · rw [heq] at h
    cases h
    exact .inl ⟨fun hstrands => hnot hstrands.admits, rfl⟩
  · obtain ⟨base, left, hbase, hhosting, ⟨-, -, p, d'', hok⟩ | ⟨hout, hfail⟩⟩ :=
      hadmits.hosting precedence
    · rw [hok] at h
      cases h
    · rw [hfail] at h
      cases h
      rcases Nat.eq_zero_or_pos (min (RulePart.hosted parts) d.room) with hzero | hpos
      · rw [hzero] at hhosting
        cases hhosting
        refine .inl ⟨fun hstrands => ?_, rfl⟩
        exact absurd (Nat.lt_min.mpr ⟨hstrands.hosted_pos, hstrands.room_pos⟩) (by omega)
      · obtain ⟨hhosted, hroom⟩ := Nat.lt_min.mp hpos
        exact .inr ⟨⟨hadmits, hhosted, hroom, hbase ▸ hout⟩, rfl, base, hbase, hhosting⟩

theorem Hosting.size_lt {base : ProductionId} {k : Nat} {d d' : Draft} (h : Hosting base k d d')
    (hk : 0 < k) : d.rules.size < d'.rules.size := by
  rw [h.sizes.2]
  exact Nat.lt_add_of_pos_right hk

theorem declareAll_append (d : Draft) (declarations later : List Declaration) :
    d.declareAll (declarations ++ later) = (d.declareAll declarations).declareAll later :=
  List.foldl_append

/-- Refusing a rule changes nothing, and the rule might as well not have been declared, unless it
strands.  Then hosts stay for as many of its actions as there were nonterminals, and the production
that these actions belong to does not exist. -/
theorem untouched_of_refused {declarations : List Declaration} {lhs : NonterminalId}
    {parts : List RulePart} {precedence : Option Precedence} {e : DefinitionError} {d d' : Draft}
    (hd : initial.declareAll declarations = d)
    (h : d.declareRule lhs parts precedence = .fail e d') :
    (d' = d ↔ ¬ d.Strands lhs parts) ∧
      (¬ d.Strands lhs parts → ∀ later,
        Grammar.define (declarations ++ .rule lhs parts precedence :: later) =
          Grammar.define (declarations ++ later)) ∧
      (d.Strands lhs parts →
        e = (if d.room < RulePart.hosted parts then .tooManySymbols else .tooManyProductions) ∧
        ∃ base, Hosted base (min (RulePart.hosted parts) d.room) d d' ∧
          ∀ r ∈ d'.rules, r.id ≠ base) := by
  have hsound : d'.Sound := by
    have hbefore := sound_declareAll declarations
    rw [hd] at hbefore
    have hchanges := changes_declareRule hbefore lhs parts precedence
    rw [h] at hchanges
    exact hbefore.changes hchanges
  rcases refused_cases h with ⟨hnot, rfl⟩ | ⟨hstrands, he, base, hbase, hhosting⟩
  · refine ⟨iff_of_true rfl hnot, fun _ later => ?_, fun hstrands => absurd hstrands hnot⟩
    have hsame : (d'.declare (.rule lhs parts precedence)).state = d' := by
      rw [declare, h]
      rfl
    unfold Grammar.define
    rw [declareAll_append, declareAll_append, hd]
    exact congrArg (fun d => (d.declareAll later).finish) hsame
  · have hlt := hhosting.size_lt (Nat.lt_min.mpr ⟨hstrands.hosted_pos, hstrands.room_pos⟩)
    refine ⟨iff_of_false (fun heq => ?_) (not_not_intro hstrands),
      fun hnot => absurd hstrands hnot, fun _ => ⟨he, base, hhosting.hosted, ?_⟩⟩
    · exact absurd hlt (heq ▸ Nat.lt_irrefl _)
    · -- Rules are numbered without gaps, and the number of the base is beyond them.
      rintro r hr rfl
      obtain ⟨i, hi⟩ := Array.getElem?_of_mem hr
      have hid := (hsound.rule hi).1
      have hsize := (Array.getElem?_eq_some_iff.mp hi).1
      have hrules := hhosting.sizes.2
      omega

end Draft

def Grammar.oneRule : List Declaration :=
  [.terminal "x" none, .nonterminal "S", .rule (.nth 1) [.terminal 2] none]

theorem Draft.untouched_of_refused_undeclared :
    ∃ e, (initial.declareAll Grammar.oneRule).declareRule (.nth 1)
        [.action "first", .terminal 2, .nonterminal 7] none =
          .fail e (initial.declareAll Grammar.oneRule) ∧
      ∀ later, Grammar.define (Grammar.oneRule ++ .rule (.nth 1)
          [.action "first", .terminal 2, .nonterminal 7] none :: later) =
        Grammar.define (Grammar.oneRule ++ later) := by
  rcases declareRule_cases (initial.declareAll Grammar.oneRule) (.nth 1)
    [.action "first", .terminal 2, .nonterminal 7] none with ⟨-, e, hrefused⟩ | ⟨hadmits, -⟩
  · obtain ⟨hsame, hlater, -⟩ := untouched_of_refused rfl hrefused
    exact ⟨e, hrefused, hlater (hsame.mp rfl)⟩
  · have hdeclared := hadmits.symbols ⟨.nonterminal (.nth 7), none⟩ (by decide)
    exact absurd hdeclared (by decide +kernel)

namespace RulePart

def interleaved : Nat → List RulePart
  | 0 => []
  | k + 1 => .action "a" :: .terminal 2 :: interleaved k

theorem go_interleaved (k : Nat) {before : List RulePart}
    (h : ∀ code rest, before ≠ .action code :: rest) :
    joinActions.go before (interleaved k) = before.reverse ++ interleaved k := by
  induction k generalizing before with
  | zero => simp [interleaved, joinActions.go]
  | succ k ih =>
      rw [interleaved]
      unfold joinActions.go
      split
      · exact absurd rfl (h _ _)
      · rw [terminal, joinActions.go, ih (by simp)]
        simp

theorem getLast?_interleaved (k : Nat) :
    (interleaved (k + 1)).getLast? = some (.terminal 2) := by
  induction k with
  | zero => rfl
  | succ k ih => simpa only [interleaved, List.getLast?_cons_cons] using ih

theorem body_interleaved (k : Nat) : body (interleaved k) = interleaved k := by
  rw [body, joinActions, go_interleaved k (by simp)]
  cases k with
  | zero => rfl
  | succ k =>
      rw [List.reverse_nil, List.nil_append, Draft.splitAction, getLast?_interleaved]
      rfl

theorem hosted_interleaved (k : Nat) : hosted (interleaved k) = k := by
  rw [hosted, body_interleaved]
  induction k with
  | zero => rfl
  | succ k ih =>
      rw [interleaved, List.countP_cons_of_pos (by rfl), terminal,
        List.countP_cons_of_neg (by simp [isAction]), ih]

theorem symbol_of_mem_interleaved {k : Nat} {part : Part} (h : .symbol part ∈ interleaved k) :
    part.symbol = .terminal (.nth 2) := by
  induction k with
  | zero => cases h
  | succ k ih =>
      simp only [interleaved, terminal, List.mem_cons, reduceCtorEq, symbol.injEq, false_or] at h
      rcases h with rfl | h
      · rfl
      · exact ih h

end RulePart

namespace Draft

theorem strands_interleaved {k : Nat} (hk : k = 65533) :
    (initial.declareAll Grammar.oneRule).Strands (.nth 1) (RulePart.interleaved k) := by
  have hrules : (initial.declareAll Grammar.oneRule).rules.size = 1 := by decide +kernel
  have hhosted := RulePart.hosted_interleaved k
  refine ⟨⟨by decide, by decide +kernel, fun part hpart => ?_, fun hzero => ?_, ?_⟩, ?_,
    by decide +kernel, .inr ?_⟩
  · rw [RulePart.symbol_of_mem_interleaved hpart]
    decide +kernel
  all_goals omega

/-- The hosts of 65533 actions take all numbers of productions but the last one, so there is none
for the rule itself. -/
theorem exists_stranded_interleaved :
    ∃ d', (initial.declareAll Grammar.oneRule).declareRule (.nth 1) (RulePart.interleaved 65533)
        none = .fail .tooManyProductions d' ∧
      d' ≠ initial.declareAll Grammar.oneRule ∧
      d'.rules.size = (initial.declareAll Grammar.oneRule).rules.size + 65533 := by
  have hroom : (initial.declareAll Grammar.oneRule).room = 65533 := by decide +kernel
  obtain ⟨base, d', hhosting, hfail⟩ := (strands_interleaved rfl).refused none
  rw [RulePart.hosted_interleaved, hroom] at hhosting hfail
  have hsize := hhosting.sizes.2
  rw [Nat.min_self] at hsize
  refine ⟨d', hfail, fun heq => ?_, hsize⟩
  rw [heq] at hsize
  omega

end Draft

end Lalr
