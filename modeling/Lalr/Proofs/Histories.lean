import Lalr.Grammar.Finish
import Lalr.Proofs.Derivation

namespace Lalr

theorem Ident.next?_eq_some {kind : Kind} {count : Nat} {id : Ident kind}
    (h : Ident.next? kind count = some id) : id.index = count ∧ count < 65535 := by
  unfold Ident.next? at h
  split at h
  · cases h
    exact ⟨rfl, by assumption⟩
  · cases h

/-- Every entry carries the number of its place. -/
def InPlace {α : Type} (number : α → Nat) (entries : Array α) : Prop :=
  ∀ i a, entries[i]? = some a → number a = i

theorem InPlace.push {α : Type} {number : α → Nat} {entries : Array α}
    (h : InPlace number entries) {a : α} (ha : number a = entries.size) :
    InPlace number (entries.push a) := by
  intro i b hb
  rw [Array.getElem?_push] at hb
  split at hb
  · rename_i hi
    cases hb
    exact ha.trans hi.symm
  · exact h i b hb

theorem InPlace.modify {α : Type} {number : α → Nat} {entries : Array α}
    (h : InPlace number entries) (j : Nat) {f : α → α} (hf : ∀ a, number (f a) = number a) :
    InPlace number (entries.modify j f) := by
  intro i b hb
  rw [Array.getElem?_modify] at hb
  split at hb
  · obtain ⟨a, ha, rfl⟩ := Option.map_eq_some_iff.mp hb
    exact (hf a).trans (h i a ha)
  · exact h i b hb

theorem InPlace.mapIdx {α β : Type} {number : α → Nat} {number' : β → Nat} {entries : Array α}
    (h : InPlace number entries) {f : Nat → α → β} (hf : ∀ i a, number' (f i a) = number a) :
    InPlace number' (entries.mapIdx f) := by
  intro i b hb
  rw [Array.getElem?_mapIdx] at hb
  obtain ⟨a, ha, rfl⟩ := Option.map_eq_some_iff.mp hb
  exact (hf i a).trans (h i a ha)

theorem InPlace.getElem?_of_mem {α : Type} {number : α → Nat} {entries : Array α}
    (h : InPlace number entries) {a : α} (ha : a ∈ entries) : entries[number a]? = some a := by
  obtain ⟨i, hi⟩ := Array.getElem?_of_mem ha
  rwa [h i a hi]

theorem InPlace.exists_of_mem_mapIdx {α β : Type} {number : α → Nat} {entries : Array α}
    (h : InPlace number entries) {f : Nat → α → β} {b : β} (hb : b ∈ entries.mapIdx f) :
    ∃ a, entries[number a]? = some a ∧ f (number a) a = b := by
  obtain ⟨i, hi⟩ := Array.getElem?_of_mem hb
  rw [Array.getElem?_mapIdx] at hi
  obtain ⟨a, ha, rfl⟩ := Option.map_eq_some_iff.mp hi
  obtain rfl := h i a ha
  exact ⟨a, ha, rfl⟩

theorem InPlace.pairwise {α : Type} {number : α → Nat} {entries : Array α}
    (h : InPlace number entries) : entries.toList.Pairwise fun a b => number a < number b := by
  rw [List.pairwise_iff_getElem]
  intro i j hi hj hij
  have hnumber : ∀ (k : Nat) (hk : k < entries.toList.length), number entries.toList[k] = k :=
    fun k hk => h k _ (by simp)
  rwa [hnumber i hi, hnumber j hj]

namespace Draft

/-- One change of a draft, with what was made sure of before. -/
inductive Change (d : Draft) : Draft → Prop
  | terminal {name : String} {precedence : Option Precedence} {id : TerminalId}
      (fresh : d.terminals.uses name = false)
      (next : Ident.next? .terminal d.terminals.size = some id) :
      Change d { d with
        terminals := d.terminals.push ⟨id, name, none, precedence⟩
        uses := d.uses.addTerminal }
  | nonterminal {name : String} {id : NonterminalId} (fresh : d.nonterminals.uses name = false)
      (next : Ident.next? .nonterminal d.nonterminals.size = some id) :
      Change d { d with
        nonterminals := d.nonterminals.push ⟨id, name, none, false⟩
        uses := d.uses.addNonterminal }
  -- Nobody asks whether the name of a hidden nonterminal is free.
  | host {valueType : Option String} {id : NonterminalId}
      (next : Ident.next? .nonterminal d.nonterminals.size = some id) :
      Change d { d with
        nonterminals := d.nonterminals.push ⟨id, "NT$" ++ toString d.embedded, valueType, true⟩
        uses := d.uses.addNonterminal
        embedded := d.embedded + 1 }
  | rule {r : Rule} (next : Ident.next? .production (d.rules.size + 1) = some r.id)
      (lhs_ne : r.lhs ≠ .start) (lhs : d.declares (.nonterminal r.lhs) = true)
      (rhs : ∀ part ∈ r.rhs, d.declares part.symbol = true)
      (fresh : ∀ r' ∈ d.rules, r'.lhs = r.lhs → r'.symbols ≠ r.symbols) :
      Change d { d with rules := d.rules.push r, uses := d.uses.noteRule r }
  | terminalType (t : TerminalId) (type : String) :
      Change d { d with
        terminals := d.terminals.modify t.index ({ · with valueType := some type }) fun _ => rfl }
  | nonterminalType (n : NonterminalId) (type : String) :
      Change d { d with
        nonterminals :=
          d.nonterminals.modify n.index ({ · with valueType := some type }) fun _ => rfl }
  | level (h : d.nextLevel < 65535) : Change d { d with nextLevel := d.nextLevel + 1 }
  | precedence (t : TerminalId) (p : Precedence) :
      Change d { d with
        terminals := d.terminals.modify t.index ({ · with precedence := some p }) fun _ => rfl }
  | start {n : NonterminalId} (ne : n ≠ .start) (declared : d.declares (.nonterminal n) = true) :
      Change d { d with start := some n }

abbrev Changes : Draft → Draft → Prop :=
  Relation.ReflTransGen Change

theorem declares_of_le {d d' : Draft} (hterminals : d.terminals.size ≤ d'.terminals.size)
    (hnonterminals : d.nonterminals.size ≤ d'.nonterminals.size) {symbol : Symbol}
    (h : d.declares symbol = true) : d'.declares symbol = true := by
  cases symbol <;> simp only [declares, decide_eq_true_eq] at h ⊢ <;> omega

theorem Change.size_le {d d' : Draft} (h : Change d d') :
    d.terminals.size ≤ d'.terminals.size ∧ d.nonterminals.size ≤ d'.nonterminals.size := by
  cases h <;> simp

theorem Changes.declares {d d' : Draft} (h : Changes d d') {symbol : Symbol}
    (hsymbol : d.declares symbol = true) : d'.declares symbol = true := by
  induction h with
  | refl => exact hsymbol
  | tail _ step ih => exact declares_of_le step.size_le.1 step.size_le.2 ih

/-- Entries carry their own numbers, those of rules counted from one, no rule is one of `$START`,
and what rules and start symbol mention is declared. -/
structure Sound (d : Draft) : Prop where
  terminals_le : d.terminals.size ≤ 65535
  nonterminals_le : d.nonterminals.size ≤ 65535
  terminals_pos : 0 < d.terminals.size
  nonterminals_pos : 0 < d.nonterminals.size
  terminal_id : InPlace (fun decl : TerminalDecl => decl.id.index) d.terminals.entries
  nonterminal_id : InPlace (fun decl : NonterminalDecl => decl.id.index) d.nonterminals.entries
  rule : ∀ {i r}, d.rules[i]? = some r →
    r.id.index = i + 1 ∧ r.lhs ≠ .start ∧ r.lhs.index < d.nonterminals.size
  rhs : ∀ r ∈ d.rules, ∀ part ∈ r.rhs, d.declares part.symbol = true
  start_ne : d.start ≠ some .start
  start : ∀ n, d.start = some n → d.declares (.nonterminal n) = true

theorem sound_initial : initial.Sound where
  terminals_le := by decide
  nonterminals_le := by decide
  terminals_pos := by decide
  nonterminals_pos := by decide
  terminal_id := by
    have hempty : InPlace (fun decl : TerminalDecl => decl.id.index) #[] := nofun
    exact (hempty.push (a := ⟨.eof, "EOF", none, none⟩) rfl).push rfl
  nonterminal_id := by
    have hempty : InPlace (fun decl : NonterminalDecl => decl.id.index) #[] := nofun
    exact hempty.push rfl
  rule := by
    intro i r h
    cases h
  rhs := by
    intro r h
    cases Array.not_mem_empty r h
  start_ne := nofun
  start := nofun

theorem Sound.of_le {d d' : Draft} (h : d.Sound)
    (hterminals : d.terminals.size ≤ d'.terminals.size ∧ d'.terminals.size ≤ 65535)
    (hnonterminals : d.nonterminals.size ≤ d'.nonterminals.size ∧ d'.nonterminals.size ≤ 65535)
    (hterminal : InPlace (fun decl : TerminalDecl => decl.id.index) d'.terminals.entries)
    (hnonterminal : InPlace (fun decl : NonterminalDecl => decl.id.index) d'.nonterminals.entries)
    (hrules : d'.rules = d.rules) (hstart : d'.start = d.start) : d'.Sound := by
  have hgrows : ∀ {symbol : Symbol}, d.declares symbol = true → d'.declares symbol = true :=
    declares_of_le hterminals.1 hnonterminals.1
  refine ⟨hterminals.2, hnonterminals.2, ?_, ?_, hterminal, hnonterminal, ?_, ?_, ?_, ?_⟩
  · exact Nat.lt_of_lt_of_le h.terminals_pos hterminals.1
  · exact Nat.lt_of_lt_of_le h.nonterminals_pos hnonterminals.1
  · intro i r hr
    rw [hrules] at hr
    obtain ⟨hid, hne, hlt⟩ := h.rule hr
    exact ⟨hid, hne, Nat.lt_of_lt_of_le hlt hnonterminals.1⟩
  · rw [hrules]
    exact fun r hr part hpart => hgrows (h.rhs r hr part hpart)
  · exact hstart ▸ h.start_ne
  · rw [hstart]
    exact fun n hn => hgrows (h.start n hn)

theorem Sound.withTerminals {d : Draft} (h : d.Sound) {terminals : Roster TerminalDecl (·.name)}
    {uses : UseCounts} (hle : d.terminals.size ≤ terminals.size ∧ terminals.size ≤ 65535)
    (hid : InPlace (fun decl : TerminalDecl => decl.id.index) terminals.entries) :
    { d with terminals, uses }.Sound :=
  h.of_le hle ⟨Nat.le_refl _, h.nonterminals_le⟩ hid h.nonterminal_id rfl rfl

theorem Sound.withNonterminals {d : Draft} (h : d.Sound)
    {nonterminals : Roster NonterminalDecl (·.name)} {uses : UseCounts} {embedded : Nat}
    (hle : d.nonterminals.size ≤ nonterminals.size ∧ nonterminals.size ≤ 65535)
    (hid : InPlace (fun decl : NonterminalDecl => decl.id.index) nonterminals.entries) :
    { d with nonterminals, uses, embedded }.Sound :=
  h.of_le ⟨Nat.le_refl _, h.terminals_le⟩ hle h.terminal_id hid rfl rfl

theorem Sound.change {d d' : Draft} (h : d.Sound) (step : Change d d') : d'.Sound := by
  cases step with
  | terminal _ next =>
      obtain ⟨hid, hlt⟩ := Ident.next?_eq_some next
      refine h.withTerminals ?_ (h.terminal_id.push hid)
      rw [Roster.size_push]
      omega
  | nonterminal _ next =>
      obtain ⟨hid, hlt⟩ := Ident.next?_eq_some next
      refine h.withNonterminals ?_ (h.nonterminal_id.push hid)
      rw [Roster.size_push]
      omega
  | host next =>
      obtain ⟨hid, hlt⟩ := Ident.next?_eq_some next
      refine h.withNonterminals ?_ (h.nonterminal_id.push hid)
      rw [Roster.size_push]
      omega
  | @rule r next lhs_ne lhs rhs _ =>
      rw [declares, decide_eq_true_eq] at lhs
      refine { h with rule := ?_, rhs := ?_ }
      · intro i r' hr'
        rw [Array.getElem?_push] at hr'
        split at hr'
        · rename_i hi
          cases hr'
          exact ⟨hi ▸ (Ident.next?_eq_some next).1, lhs_ne, lhs⟩
        · exact h.rule hr'
      · intro r' hr'
        rcases Array.mem_push.mp hr' with hr' | rfl
        · exact h.rhs r' hr'
        · exact rhs
  | terminalType t type =>
      refine h.withTerminals ?_ (h.terminal_id.modify _ fun _ => rfl)
      rw [Roster.size_modify]
      exact ⟨Nat.le_refl _, h.terminals_le⟩
  | nonterminalType n type =>
      refine h.withNonterminals ?_ (h.nonterminal_id.modify _ fun _ => rfl)
      rw [Roster.size_modify]
      exact ⟨Nat.le_refl _, h.nonterminals_le⟩
  | level _ => exact { h with }
  | precedence t p =>
      refine h.withTerminals ?_ (h.terminal_id.modify _ fun _ => rfl)
      rw [Roster.size_modify]
      exact ⟨Nat.le_refl _, h.terminals_le⟩
  | start ne declared =>
      refine { h with start_ne := ?_, start := ?_ }
      · exact fun heq => ne (Option.some.inj heq)
      · rintro n ⟨⟩
        exact declared

theorem Sound.changes {d d' : Draft} (h : d.Sound) (steps : Changes d d') : d'.Sound := by
  induction steps with
  | refl => exact h
  | tail _ step ih => exact ih.change step

theorem changes_declareTerminal (d : Draft) (name : String) (precedence : Option Precedence) :
    Changes d (d.declareTerminal name precedence).state := by
  unfold declareTerminal
  split
  · exact .refl
  · rename_i hname
    split
    · exact .refl
    · rename_i id hid
      exact .single (.terminal (by simpa using hname) hid)

theorem changes_declareNonterminal (d : Draft) (name : String) :
    Changes d (d.declareNonterminal name).state := by
  unfold declareNonterminal
  split
  · exact .refl
  · rename_i hname
    unfold addNonterminal
    split
    · exact .refl
    · rename_i id hid
      exact .single (.nonterminal (by simpa using hname) hid)

theorem changes_declareType (d : Draft) (symbol : Symbol) (type : String) :
    Changes d (d.declareType symbol type).state := by
  unfold declareType
  split
  · cases symbol with
    | terminal t => exact .single (.terminalType t type)
    | nonterminal n => exact .single (.nonterminalType n type)
  · exact .refl

theorem changes_assignPrecedence (p : Precedence) (d : Draft) (ts : List TerminalId) :
    Changes d (d.assignPrecedence p ts).state := by
  induction ts generalizing d with
  | nil => exact .refl
  | cons t ts ih =>
      unfold assignPrecedence
      split
      · exact .head (.precedence t p) (ih _)
      · exact .refl

theorem changes_declareLevel (d : Draft) (associativity : Associativity) (ts : List TerminalId) :
    Changes d (d.declareLevel associativity ts).state := by
  unfold declareLevel
  split
  · rename_i hlevel
    exact .head (.level hlevel) (changes_assignPrecedence _ _ ts)
  · exact .refl

theorem changes_addRule {d : Draft} {lhs : NonterminalId} {rhs : Array Part}
    (hne : lhs ≠ .start) (hlhs : d.declares (.nonterminal lhs) = true)
    (hrhs : ∀ part ∈ rhs, d.declares part.symbol = true)
    (hfresh : ∀ r ∈ d.rules, r.lhs = lhs → r.symbols ≠ rhs.toList.map Part.symbol)
    (action : Option String) (precedence : Option Precedence) (origin : Origin) :
    Changes d (d.addRule lhs rhs action precedence origin).state := by
  unfold addRule
  split
  · exact .refl
  · rename_i id hid
    exact .single (.rule hid hne hlhs hrhs hfresh)

/-- What comes of moving actions out of a rule: rules come in for new nonterminals only. -/
structure Hosts (d d' : Draft) : Prop where
  changes : Changes d d'
  rules : ∀ r ∈ d'.rules, r ∈ d.rules ∨ d.declares (.nonterminal r.lhs) = false

theorem Hosts.refl (d : Draft) : d.Hosts d :=
  ⟨.refl, fun _ hr => .inl hr⟩

theorem Hosts.trans {d d' d'' : Draft} (h : d.Hosts d') (h' : d'.Hosts d'') : d.Hosts d'' := by
  refine ⟨Relation.ReflTransGen.trans h.changes h'.changes, fun r hr => ?_⟩
  rcases h'.rules r hr with hr | hnew
  · exact h.rules r hr
  · right
    rw [← Bool.not_eq_true]
    intro hold
    exact Bool.false_ne_true (hnew.symm.trans (h.changes.declares hold))

theorem mem_rules_addRule {d : Draft} {lhs : NonterminalId} {rhs : Array Part}
    {action : Option String} {precedence : Option Precedence} {origin : Origin} {r : Rule}
    (h : r ∈ (d.addRule lhs rhs action precedence origin).state.rules) :
    r ∈ d.rules ∨ r.lhs = lhs := by
  unfold addRule at h
  split at h
  · exact .inl h
  · rcases Array.mem_push.mp h with h | rfl
    · exact .inl h
    · exact .inr rfl

theorem hosts_hostAction {d : Draft} (hd : d.Sound) (base : ProductionId)
    (valueType : Option String) (offset : Nat) (code : String) :
    d.Hosts (d.hostAction base valueType offset code).state ∧
      ∀ n, (d.hostAction base valueType offset code).outcome = .ok n →
        d.declares (.nonterminal n) = false ∧
          (d.hostAction base valueType offset code).state.declares (.nonterminal n) = true := by
  unfold hostAction addNonterminal
  cases hnext : Ident.next? .nonterminal d.nonterminals.size with
  | none => exact ⟨.refl d, nofun⟩
  | some n =>
      obtain ⟨hindex, -⟩ := Ident.next?_eq_some hnext
      have hpos := hd.nonterminals_pos
      have hhost := @Change.host d valueType n hnext
      simp only [Attempt.andThen_succeed]
      generalize hd' : { d with
        nonterminals := d.nonterminals.push ⟨n, "NT$" ++ toString d.embedded, valueType, true⟩
        uses := d.uses.addNonterminal
        embedded := d.embedded + 1 } = d' at hhost ⊢
      have hnew : d.declares (.nonterminal n) = false := by
        rw [declares, decide_eq_false_iff_not, hindex]
        exact Nat.lt_irrefl _
      have hknown : d'.declares (.nonterminal n) = true := by
        rw [← hd', declares, decide_eq_true_eq, hindex, Roster.size_push]
        exact Nat.lt_succ_self _
      have hrules : d'.rules = d.rules := by rw [← hd']
      have hne : n ≠ NonterminalId.start := by
        rintro rfl
        exact absurd hindex (Nat.ne_of_lt hpos)
      -- No rule of the draft has the new nonterminal on its left.
      have hfresh : ∀ r ∈ d'.rules, r.lhs = n → r.symbols ≠ (#[] : Array Part).toList.map
          Part.symbol := by
        rintro r hr rfl
        rw [hrules] at hr
        obtain ⟨i, hi⟩ := Array.getElem?_of_mem hr
        exact absurd (hd.rule hi).2.2 (by simpa [declares] using hnew)
      have hadd := changes_addRule hne hknown (by simp) hfresh (some code) none
        (.embedded base offset)
      refine ⟨⟨.head hhost hadd, fun r hr => ?_⟩, fun m hm => ?_⟩
      · rcases mem_rules_addRule hr with hr | rfl
        · exact .inl (hrules ▸ hr)
        · exact .inr hnew
      · obtain rfl : n = m := by
          simp only [Attempt.map] at hm
          generalize d'.addRule n #[] _ _ _ = added at hm
          rcases added with ⟨e | p, d''⟩ <;> cases hm
          rfl
        exact ⟨hnew, hadd.declares hknown⟩

/-- Moving actions into hidden nonterminals leaves a right side of declared symbols.  It is the one
without actions if there are none, and otherwise mentions a new symbol. -/
theorem hosts_hostActions (base : ProductionId) (valueType : Option String) {d : Draft}
    (hd : d.Sound) {rhs : Array Part} {parts : List RulePart}
    (hrhs : ∀ part ∈ rhs, d.declares part.symbol = true)
    (hparts : ∀ part, .symbol part ∈ parts → d.declares part.symbol = true) :
    d.Hosts (d.hostActions base valueType rhs parts).state ∧
      ∀ rhs', (d.hostActions base valueType rhs parts).outcome = .ok rhs' →
        (∀ part ∈ rhs',
          (d.hostActions base valueType rhs parts).state.declares part.symbol = true) ∧
        (∀ part ∈ rhs, part ∈ rhs') ∧
        (parts.countP RulePart.isAction = 0 →
          (d.hostActions base valueType rhs parts).state = d ∧
            rhs'.toList = rhs.toList ++ parts.filterMap RulePart.part?) ∧
        (parts.countP RulePart.isAction ≠ 0 →
          ∃ part ∈ rhs', d.declares part.symbol = false) := by
  induction parts generalizing d rhs with
  | nil =>
      refine ⟨.refl d, ?_⟩
      rintro rhs' ⟨⟩
      exact ⟨hrhs, fun _ h => h, by simp [hostActions, Attempt.succeed], by simp⟩
  | cons part parts ih =>
      cases part with
      | symbol part =>
          have hpush : ∀ part' ∈ rhs.push part, d.declares part'.symbol = true := by
            intro part' hpart'
            rcases Array.mem_push.mp hpart' with hpart' | rfl
            · exact hrhs part' hpart'
            · exact hparts _ List.mem_cons_self
          obtain ⟨hhosts, hresult⟩ := ih hd hpush fun part' hpart' =>
            hparts part' (List.mem_cons_of_mem _ hpart')
          refine ⟨hhosts, fun rhs' hrhs' => ?_⟩
          obtain ⟨hdeclared, hkept, hplain, hnew⟩ := hresult rhs' hrhs'
          refine ⟨hdeclared, fun part' hpart' => hkept part' (Array.mem_push_of_mem _ hpart'),
            fun hzero => ?_, fun hsome => ?_⟩
          · obtain ⟨hsame, hlist⟩ := hplain (by simpa [RulePart.isAction] using hzero)
            refine ⟨hsame, ?_⟩
            rw [hlist, Array.toList_push, List.append_assoc]
            rfl
          · exact hnew (by simpa [RulePart.isAction] using hsome)
      | action code =>
          obtain ⟨hhost, hfound⟩ := hosts_hostAction hd base valueType rhs.size code
          unfold hostActions
          split <;> rename_i heq <;> rw [heq] at hhost hfound
          · rename_i n d'
            obtain ⟨hnew, hknown⟩ := hfound n rfl
            have hpush : ∀ part' ∈ rhs.push ⟨.nonterminal n, none⟩,
                d'.declares part'.symbol = true := by
              intro part' hpart'
              rcases Array.mem_push.mp hpart' with hpart' | rfl
              · exact hhost.changes.declares (hrhs part' hpart')
              · exact hknown
            obtain ⟨hhosts, hresult⟩ := ih (hd.changes hhost.changes) hpush fun part' hpart' =>
              hhost.changes.declares (hparts part' (List.mem_cons_of_mem _ hpart'))
            refine ⟨hhost.trans hhosts, fun rhs' hrhs' => ?_⟩
            obtain ⟨hdeclared, hkept, -, -⟩ := hresult rhs' hrhs'
            refine ⟨hdeclared, fun part' hpart' => hkept part' (Array.mem_push_of_mem _ hpart'),
              fun hzero => ?_, fun _ => ?_⟩
            · simp [RulePart.isAction] at hzero
            · exact ⟨_, hkept _ Array.mem_push_self, hnew⟩
          · exact ⟨hhost, nofun⟩

theorem declares_of_undeclared? {d : Draft} {parts : List RulePart}
    (h : d.undeclared? parts = none) {part : Part} (hpart : .symbol part ∈ parts) :
    d.declares part.symbol = true := by
  unfold undeclared? at h
  rw [Option.map_eq_none_iff, List.findSome?_eq_none_iff] at h
  simpa [RulePart.part?] using h _ hpart

theorem mem_of_splitAction {parts : List RulePart} {part : RulePart}
    (h : part ∈ (splitAction parts).1) : part ∈ parts := by
  unfold splitAction at h
  split at h
  · exact List.dropLast_subset _ h
  · exact h

theorem hasRule_eq_true {d : Draft} {lhs : NonterminalId} {symbols : List Symbol} :
    d.hasRule lhs symbols.toArray = true ↔ ∃ r ∈ d.rules, r.lhs = lhs ∧ r.symbols = symbols := by
  unfold hasRule
  rw [Array.any_eq_true']
  refine exists_congr fun r => and_congr_right fun _ => ?_
  rw [Bool.and_eq_true, beq_iff_eq, beq_iff_eq, ← Array.toList_inj, Array.toList_map, Rule.symbols]

theorem changes_declareRule {d : Draft} (hd : d.Sound) (lhs : NonterminalId)
    (parts : List RulePart) (precedence : Option Precedence) :
    Changes d (d.declareRule lhs parts precedence).state := by
  unfold declareRule
  split
  · exact .refl
  · rename_i decl hdecl
    split
    · exact .refl
    · rename_i hne
      simp only
      split
      · exact .refl
      · rename_i hundeclared
        split
        · exact .refl
        · rename_i hduplicate
          split
          · rename_i hbase
            have hlhs : d.declares (.nonterminal lhs) = true :=
              decide_eq_true (Array.getElem?_eq_some_iff.mp hdecl).1
            have hparts : ∀ part, .symbol part ∈ (splitAction (RulePart.joinActions parts)).1 →
                d.declares part.symbol = true := fun part hpart =>
              declares_of_undeclared? hundeclared (mem_of_splitAction hpart)
            generalize (splitAction (RulePart.joinActions parts)).1 = body at *
            obtain ⟨hhosts, hresult⟩ := hosts_hostActions ⟨_, hbase⟩ decl.valueType hd
              (by simp : ∀ part ∈ #[], _) hparts
            generalize Draft.hostActions _ _ d #[] body = r at hhosts hresult ⊢
            rcases r with ⟨e | rhs, d'⟩
            · exact hhosts.changes
            · obtain ⟨hrhs, -, hplain, hnew⟩ := hresult rhs rfl
              refine Relation.ReflTransGen.trans hhosts.changes (changes_addRule hne
                (hhosts.changes.declares hlhs) hrhs (fun r hr hrlhs hsymbols => ?_) _ _ _)
              by_cases hzero : body.countP RulePart.isAction = 0
              · -- Nothing was hosted, so the rule itself was looked for.
                obtain ⟨rfl, hlist⟩ := hplain hzero
                rw [hlist] at hsymbols
                exact hduplicate ⟨hzero, hasRule_eq_true.mpr ⟨r, hr, hrlhs, hsymbols⟩⟩
              · -- The right side mentions a symbol that the rules before did not have.
                obtain ⟨part, hpart, hfalse⟩ := hnew hzero
                rcases hhosts.rules r hr with hr | hfalse'
                · have hmem : part.symbol ∈ r.symbols :=
                    hsymbols ▸ List.mem_map.mpr ⟨part, Array.mem_toList_iff.mpr hpart, rfl⟩
                  obtain ⟨part', hpart', heq⟩ := List.mem_map.mp hmem
                  have := hd.rhs r hr part' (Array.mem_toList_iff.mp hpart')
                  rw [heq, hfalse] at this
                  exact Bool.false_ne_true this
                · rw [hrlhs, hlhs] at hfalse'
                  exact Bool.false_ne_true hfalse'.symm
          · exact .refl

theorem changes_declareStart (d : Draft) (n : NonterminalId) :
    Changes d (d.declareStart n).state := by
  unfold declareStart
  split
  · exact .refl
  · rename_i hn
    rw [not_or, Bool.not_eq_false] at hn
    exact .single (.start hn.1 hn.2)

theorem changes_declare {d : Draft} (hd : d.Sound) (declaration : Declaration) :
    Changes d (d.declare declaration).state := by
  cases declaration with
  | terminal name precedence => exact changes_declareTerminal d name precedence
  | nonterminal name => exact changes_declareNonterminal d name
  | valueType symbol type => exact changes_declareType d symbol type
  | level associativity ts => exact changes_declareLevel d associativity ts
  | rule lhs parts precedence => exact changes_declareRule hd lhs parts precedence
  | start n => exact changes_declareStart d n

theorem changes_declareAll {d : Draft} (hd : d.Sound) (declarations : List Declaration) :
    Changes d (d.declareAll declarations) := by
  induction declarations generalizing d with
  | nil => exact .refl
  | cons declaration declarations ih =>
      have hfirst := changes_declare hd declaration
      exact Relation.ReflTransGen.trans hfirst (ih (hd.changes hfirst))

theorem declareAll_induction {motive : Draft → Prop} (start : motive initial)
    (step : ∀ {d d' : Draft}, d.Sound → Change d d' → motive d → motive d')
    (declarations : List Declaration) : motive (initial.declareAll declarations) := by
  have hchanges := changes_declareAll sound_initial declarations
  generalize initial.declareAll declarations = d at hchanges
  induction hchanges with
  | refl => exact start
  | tail before change ih => exact step (sound_initial.changes before) change ih

theorem sound_declareAll (declarations : List Declaration) :
    (initial.declareAll declarations).Sound :=
  sound_initial.changes (changes_declareAll sound_initial declarations)

theorem Sound.start?_ne {d : Draft} (h : d.Sound) : d.start? ≠ some .start := by
  unfold Draft.start?
  intro hstart
  rcases Option.or_eq_some_iff.mp hstart with hd | ⟨-, hfind⟩
  · exact h.start_ne hd
  · obtain ⟨decl, hdecl, hid⟩ := Option.map_eq_some_iff.mp hfind
    have := Array.find?_some hdecl
    simp [hid] at this

theorem Sound.declares_start? {d : Draft} (hd : d.Sound) {n : NonterminalId}
    (h : d.start? = some n) : d.declares (.nonterminal n) = true := by
  unfold Draft.start? at h
  rcases Option.or_eq_some_iff.mp h with hn | ⟨-, hfind⟩
  · exact hd.start n hn
  · obtain ⟨decl, hdecl, rfl⟩ := Option.map_eq_some_iff.mp hfind
    obtain ⟨i, hi⟩ := Array.getElem?_of_mem (Array.mem_of_find?_eq_some hdecl)
    have hindex : decl.id.index = i := hd.nonterminal_id i decl hi
    rw [declares, decide_eq_true_eq, hindex]
    exact (Array.getElem?_eq_some_iff.mp hi).1

end Draft

end Lalr
