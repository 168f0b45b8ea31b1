import Lalr.Proofs.Levels
import Lalr.Proofs.Names

namespace Lalr

def TerminalDecl.unranked (t : TerminalDecl) : TerminalDecl :=
  { t with precedence := none }

theorem TerminalDecl.name_ranked (p : Precedence) (t : TerminalDecl) :
    { t with precedence := some p }.name = t.name :=
  rfl

namespace Draft

/-- The second draft is the first with one more level, which the terminals `ts` are on. -/
structure WithLevel (d : Draft) (associativity : Associativity) (ts : List TerminalId)
    (d' : Draft) : Prop where
  declared : ∀ t ∈ ts, d.declares (.terminal t) = true
  on : ∀ t ∈ ts, d'.precedenceOn t = some ⟨d.nextLevel, associativity⟩
  off : ∀ t ∉ ts, d'.precedenceOn t = d.precedenceOn t
  -- The next level is one higher, and all else stays.
  rest : ∃ terminals : Roster TerminalDecl (·.name),
    d' = { d with terminals, nextLevel := d.nextLevel + 1 } ∧
      terminals.keys TerminalDecl.unranked = d.terminals.keys TerminalDecl.unranked

def ranked (d : Draft) (t : TerminalId) (p : Precedence) : Draft :=
  { d with
    terminals :=
      d.terminals.modify t.index ({ · with precedence := some p }) (TerminalDecl.name_ranked p) }

theorem assignPrecedence_cons {d : Draft} {t : TerminalId} (h : d.declares (.terminal t) = true)
    (p : Precedence) (ts : List TerminalId) :
    d.assignPrecedence p (t :: ts) = (d.ranked t p).assignPrecedence p ts :=
  if_pos h

theorem declares_ranked (d : Draft) (t : TerminalId) (p : Precedence) (symbol : Symbol) :
    (d.ranked t p).declares symbol = d.declares symbol := by
  cases symbol with
  | terminal u => rw [declares, ranked, Roster.size_modify, declares]
  | nonterminal n => rfl

theorem keys_ranked (d : Draft) (t : TerminalId) (p : Precedence) :
    (d.ranked t p).terminals.keys TerminalDecl.unranked =
      d.terminals.keys TerminalDecl.unranked := by
  rw [ranked, Roster.keys_modify]
  exact fun _ => rfl

theorem assignPrecedence_rest (p : Precedence) (d : Draft) (ts : List TerminalId) :
    ∃ terminals : Roster TerminalDecl (·.name),
      (d.assignPrecedence p ts).state = { d with terminals } ∧
        terminals.keys TerminalDecl.unranked = d.terminals.keys TerminalDecl.unranked := by
  induction ts generalizing d with
  | nil => exact ⟨d.terminals, rfl, rfl⟩
  | cons t ts ih =>
      by_cases ht : d.declares (.terminal t) = true
      · obtain ⟨terminals, hstate, hkeys⟩ := ih (d.ranked t p)
        rw [assignPrecedence_cons ht]
        exact ⟨terminals, hstate, hkeys.trans (d.keys_ranked t p)⟩
      · rw [assignPrecedence, if_neg ht]
        exact ⟨d.terminals, rfl, rfl⟩

theorem assignPrecedence_of_declared {d : Draft} {ts : List TerminalId}
    (h : ∀ t ∈ ts, d.declares (.terminal t) = true) (p : Precedence) :
    ∃ d', d.assignPrecedence p ts = .succeed () d' := by
  induction ts generalizing d with
  | nil => exact ⟨d, rfl⟩
  | cons t ts ih =>
      rw [assignPrecedence_cons (h t List.mem_cons_self)]
      refine ih fun u hu => ?_
      rw [declares_ranked]
      exact h u (List.mem_cons_of_mem _ hu)

/-- Whoever comes before a terminal that is not declared keeps the precedence it was given. -/
theorem assignPrecedence_append {p : Precedence} {d d' : Draft} {before : List TerminalId}
    (h : d.assignPrecedence p before = .succeed () d') {t : TerminalId}
    (ht : d.declares (.terminal t) = false) (after : List TerminalId) :
    d.assignPrecedence p (before ++ t :: after) = .fail (.unknownSymbol (.terminal t)) d' := by
  induction before generalizing d with
  | nil =>
      cases h
      exact if_neg (Bool.eq_false_iff.mp ht)
  | cons u before ih =>
      by_cases hu : d.declares (.terminal u) = true
      · rw [List.cons_append, assignPrecedence_cons hu]
        rw [assignPrecedence_cons hu] at h
        exact ih h ((d.declares_ranked u p _).trans ht)
      · rw [assignPrecedence, if_neg hu] at h
        cases h

variable {d d' : Draft} {associativity : Associativity} {ts : List TerminalId}

theorem declareLevel_of_declared (hlevel : d.nextLevel < 65535)
    (h : ∀ t ∈ ts, d.declares (.terminal t) = true) (associativity : Associativity) :
    ∃ d', d.declareLevel associativity ts = .succeed () d' := by
  rw [declareLevel, if_pos hlevel]
  exact assignPrecedence_of_declared (d := { d with nextLevel := d.nextLevel + 1 }) h _

theorem declareLevel_append {before : List TerminalId}
    (h : d.declareLevel associativity before = .succeed () d') {t : TerminalId}
    (ht : d.declares (.terminal t) = false) (after : List TerminalId) :
    d.declareLevel associativity (before ++ t :: after) =
      .fail (.unknownSymbol (.terminal t)) d' := by
  unfold declareLevel at h ⊢
  split at h
  · rename_i hlevel
    rw [if_pos hlevel]
    exact assignPrecedence_append h ht after
  · cases h

theorem withLevel_of_declareLevel (h : d.declareLevel associativity ts = .succeed () d') :
    d.WithLevel associativity ts d' := by
  unfold declareLevel at h
  split at h
  · refine ⟨fun t ht => decide_eq_true (precedenceOn_assignPrecedence h ht).1,
      fun t ht => (precedenceOn_assignPrecedence h ht).2, fun t ht => ?_, ?_⟩
    · have hkept := precedenceOn_assignPrecedence_of_notMem (p := ⟨d.nextLevel, associativity⟩) ht
        { d with nextLevel := d.nextLevel + 1 }
      rwa [h] at hkept
    · have hrest := assignPrecedence_rest ⟨d.nextLevel, associativity⟩
        { d with nextLevel := d.nextLevel + 1 } ts
      rwa [h] at hrest
  · cases h

theorem WithLevel.nextLevel_eq (h : d.WithLevel associativity ts d') :
    d'.nextLevel = d.nextLevel + 1 := by
  obtain ⟨terminals, hrest, -⟩ := h.rest
  rw [hrest]

/-- A refused call found no level left, or it opened one for the terminals before the first that is
not declared. -/
theorem refusedLevel_cases {e : DefinitionError}
    (h : d.declareLevel associativity ts = .fail e d') :
    ¬ d.nextLevel < 65535 ∧ e = .tooManyLevels ∧ d' = d ∨
      d.nextLevel < 65535 ∧ ∃ before t after, ts = before ++ t :: after ∧
        d.declares (.terminal t) = false ∧ e = .unknownSymbol (.terminal t) ∧
        d.declareLevel associativity before = .succeed () d' := by
  by_cases hlevel : d.nextLevel < 65535
  · refine .inr ⟨hlevel, ?_⟩
    cases hfind : ts.find? fun t => !d.declares (.terminal t) with
    | none =>
        have hall : ∀ t ∈ ts, d.declares (.terminal t) = true := by
          simpa using hfind
        obtain ⟨d'', hok⟩ := declareLevel_of_declared hlevel hall associativity
        rw [hok] at h
        cases h
    | some t =>
        obtain ⟨ht, before, after, rfl, hbefore⟩ := List.find?_eq_some_iff_append.mp hfind
        have hdeclared : ∀ u ∈ before, d.declares (.terminal u) = true := by
          simpa using hbefore
        obtain ⟨d'', hok⟩ := declareLevel_of_declared hlevel hdeclared associativity
        rw [declareLevel_append hok (by simpa using ht)] at h
        cases h
        exact ⟨before, t, after, rfl, by simpa using ht, rfl, hok⟩
  · rw [declareLevel, if_neg hlevel] at h
    cases h
    exact .inl ⟨hlevel, rfl, rfl⟩

theorem nextLevel_le (declarations : List Declaration) :
    (initial.declareAll declarations).nextLevel ≤ 65535 := by
  rw [nextLevel_declareAll (by decide)]
  exact Nat.min_le_right ..

theorem define_level {declarations : List Declaration}
    (hd : initial.declareAll declarations = d) (associativity : Associativity)
    (ts : List TerminalId) (later : List Declaration) :
    Grammar.define (declarations ++ .level associativity ts :: later) =
      ((d.declareLevel associativity ts).state.declareAll later).finish := by
  rw [Grammar.define, declareAll_append, hd]
  rfl

/-- A refused precedence call changes nothing, and might as well not have been made, exactly if it
found no level left.  Otherwise it did what the call does that names only the terminals before the
first that is not declared. -/
theorem untouched_of_refusedLevel {declarations : List Declaration} {e : DefinitionError}
    (hd : initial.declareAll declarations = d)
    (h : d.declareLevel associativity ts = .fail e d') :
    (d' = d ↔ d.nextLevel = 65535) ∧
      (d.nextLevel = 65535 → e = .tooManyLevels ∧ ∀ later,
        Grammar.define (declarations ++ .level associativity ts :: later) =
          Grammar.define (declarations ++ later)) ∧
      (d.nextLevel ≠ 65535 → ∃ before t after, ts = before ++ t :: after ∧
        d.declares (.terminal t) = false ∧ e = .unknownSymbol (.terminal t) ∧
        d.WithLevel associativity before d' ∧
        ∀ later, Grammar.define (declarations ++ .level associativity ts :: later) =
          Grammar.define (declarations ++ .level associativity before :: later)) := by
  have hle : d.nextLevel ≤ 65535 := hd ▸ nextLevel_le declarations
  rcases refusedLevel_cases h with ⟨hnone, rfl, rfl⟩ | ⟨hlevel, before, t, after, rfl, ht, rfl, hok⟩
  · have hfull : d'.nextLevel = 65535 := Nat.le_antisymm hle (Nat.le_of_not_lt hnone)
    refine ⟨iff_of_true rfl hfull, fun _ => ⟨rfl, fun later => ?_⟩, fun hne => absurd hfull hne⟩
    rw [define_level hd, h, Grammar.define, declareAll_append, hd]
    rfl
  · have hleft : d.nextLevel ≠ 65535 := Nat.ne_of_lt hlevel
    have hwith := withLevel_of_declareLevel hok
    refine ⟨iff_of_false (fun hsame => ?_) hleft, fun hfull => absurd hfull hleft,
      fun _ => ⟨before, t, after, rfl, ht, rfl, hwith, fun later => ?_⟩⟩
    · have hnext := hwith.nextLevel_eq
      rw [hsame] at hnext
      exact absurd hnext (Nat.ne_of_lt (Nat.lt_succ_self _))
    · rw [define_level hd, h, define_level hd, hok]
      rfl

theorem exists_halfway : ∃ d',
    (initial.declareAll Grammar.oneRule).declareLevel .left [.nth 2] = .succeed () d' ∧
      (initial.declareAll Grammar.oneRule).declareLevel .left [.nth 2, .nth 7] =
        .fail (.unknownSymbol (.terminal (.nth 7))) d' := by
  obtain ⟨d', hok⟩ := @declareLevel_of_declared (initial.declareAll Grammar.oneRule) [.nth 2]
    (by decide +kernel) (by decide +kernel) .left
  exact ⟨d', hok, declareLevel_append hok (by decide +kernel) []⟩

theorem untouched_of_refusedLevel_halfway : ∃ d',
    (initial.declareAll Grammar.oneRule).declareLevel .left [.nth 2, .nth 7] =
        .fail (.unknownSymbol (.terminal (.nth 7))) d' ∧
      d' ≠ initial.declareAll Grammar.oneRule ∧ ∃ before t after,
        [.nth 2, .nth 7] = before ++ t :: after ∧
        (initial.declareAll Grammar.oneRule).declares (.terminal t) = false ∧
        ∀ later, Grammar.define (Grammar.oneRule ++ .level .left [.nth 2, .nth 7] :: later) =
          Grammar.define (Grammar.oneRule ++ .level .left before :: later) := by
  obtain ⟨d', -, hfail⟩ := exists_halfway
  have hleft : (initial.declareAll Grammar.oneRule).nextLevel ≠ 65535 := by decide +kernel
  obtain ⟨hsame, -, hpartly⟩ := untouched_of_refusedLevel rfl hfail
  obtain ⟨before, t, after, hts, ht, -, -, hlater⟩ := hpartly hleft
  exact ⟨d', hfail, fun heq => hleft (hsame.mp heq), before, t, after, hts, ht, hlater⟩

/-- The level is used up, the first terminal is on it, and the grammar shows it. -/
theorem exists_left_halfway : ∃ e d',
    (initial.declareAll Grammar.oneRule).declareLevel .left [.nth 2, .nth 7] = .fail e d' ∧
      d'.precedenceOn (.nth 2) ≠ (initial.declareAll Grammar.oneRule).precedenceOn (.nth 2) ∧
      d'.nextLevel ≠ (initial.declareAll Grammar.oneRule).nextLevel ∧
      Grammar.define (Grammar.oneRule ++ [.level .left [.nth 2, .nth 7]]) ≠
        Grammar.define Grammar.oneRule := by
  obtain ⟨d', hok, hfail⟩ := exists_halfway
  have hwith := withLevel_of_declareLevel hok
  refine ⟨_, d', hfail, ?_, hwith.nextLevel_eq ▸ Nat.succ_ne_self _, fun hsame => ?_⟩
  · have hbare : (initial.declareAll Grammar.oneRule).precedenceOn (.nth 2) = none := by
      decide +kernel
    rw [hwith.on _ List.mem_cons_self, hbare]
    exact Option.some_ne_none _
  · let rank (r : Except DefinitionError Grammar) := r.toOption.bind (·.precedenceOn (.nth 2))
    have hranked : rank (Grammar.define (Grammar.oneRule ++
        [.level .left [.nth 2, .nth 7]])) = some ⟨1, .left⟩ := by decide +kernel
    have hbare : rank (Grammar.define Grammar.oneRule) = none := by decide +kernel
    rw [hsame, hbare] at hranked
    cases hranked

end Draft

end Lalr
